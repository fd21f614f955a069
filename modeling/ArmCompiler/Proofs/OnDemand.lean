import ArmCompiler.Proofs.DirectGeneration
import ArmCompiler.Proofs.LinkClosed

/-!
# Routines on Demand

A routine is added to a listing the first time it is asked for, possibly in the middle of another
sequence, and the routine that it calls is added only after it is closed. Whatever else is done to
the listing in between, a routine that is there is there once, has the code that was written when it
was added, and comes with all routines that its code calls. So it does not matter in which order
routines are asked for, nor how often. Main statement: `routines_on_demand`.

Sequences that are opened by hand must not take the name of a routine: the routine would then count
as present.

## Contents
- §1: requests that spare the routines
- §2: listings whose routines are in order
- §3: writing and storing
- §4: asking for a routine
- §5: what a run adds
- §6: routines on demand
-/

namespace ArmCompiler

theorem Routine.mem_all (r : Routine) : r ∈ Routine.all := by
  cases r <;> decide

namespace Listing

/-! ## §1 Requests that spare the routines -/

/-- A request that opens no sequence under the name of a routine. -/
def Request.Spares : Request → Prop
  | .plain (.start name _) => name ∉ Routine.all.map Routine.label
  | .plain (.emit _) | .plain (.finish _) | .plain (.intern _) | .routine _ => True

instance : DecidablePred Request.Spares := fun request =>
  match request with
  | .plain (.start name _) => inferInstanceAs (Decidable (name ∉ Routine.all.map Routine.label))
  | .plain (.emit _) | .plain (.finish _) | .plain (.intern _) | .routine _ => .isTrue trivial

/-- The routines that a request asks for, directly or through others. -/
def Request.supplies : Request → List Routine
  | .routine r => r.chain
  | .plain _ => []

/-- The texts that a request needs stored. -/
def Request.needs : Request → List String
  | .plain (.intern text) => [text]
  | .routine r => r.chain.flatMap Routine.texts
  | .plain (.emit _) | .plain (.start _ _) | .plain (.finish _) => []

/-! ## §2 Listings whose routines are in order -/

/-- A listing in which every routine is present once at most, closed, written out in full, and
together with the texts it loads and the routines it calls. -/
structure Supplied (listing : Listing) : Prop where
  distinct : listing.names.Nodup
  closed : ClosedBut [] listing.names
  shut : ∀ r : Routine, r.label ∉ listing.opened
  written : ∀ sequence ∈ listing.sequences, ∀ r : Routine, sequence.name = r.label →
    sequence = r.sequence listing.messageLabel
  texts : ∀ r : Routine, r.label ∈ listing.names → ∀ text ∈ r.texts, text ∈ listing.messages

theorem supplied_empty : Supplied {} where
  distinct := List.nodup_nil
  closed := fun _ hr => absurd hr List.not_mem_nil
  shut := fun _ => List.not_mem_nil
  written := fun _ hsequence => absurd hsequence List.not_mem_nil
  texts := fun _ hr => absurd hr List.not_mem_nil

/-- In a listing that is closed under calls a routine comes with its whole chain. -/
theorem chain_present {names : List String} (hclosed : ClosedBut [] names) (r : Routine)
    (hr : r.label ∈ names) : ∀ q ∈ r.chain, q.label ∈ names := by
  induction hlength : r.chain.length generalizing r with
  | zero => rcases r.chain_eq with ⟨hchain, _⟩ | ⟨_, hchain, _⟩ <;> simp [hchain] at hlength
  | succ n ih =>
    rcases r.chain_eq with ⟨hchain, _⟩ | ⟨callee, hchain, hcallees⟩
    · simpa [hchain] using hr
    · have hcallee : callee.label ∈ names := by
        simpa using hclosed r hr callee (by simp [hcallees])
      have hshorter : callee.chain.length = n := by simpa [hchain] using hlength
      intro q hq
      rcases List.mem_cons.1 (hchain ▸ hq) with rfl | hq
      · exact hr
      · exact ih callee hcallee hshorter q hq

namespace Supplied

variable {listing after : Listing}

/-- The code of a routine that is present calls only routines that are. -/
theorem callee_present (h : listing.Supplied) {sequence : Sequence}
    (hsequence : sequence ∈ listing.sequences) {r q : Routine} (hname : sequence.name = r.label)
    {i : Instruction} (hi : i ∈ sequence.code) (htarget : i.target? = some q.label) :
    q.label ∈ listing.names := by
  have hr : r.label ∈ listing.names := List.mem_map.2 ⟨sequence, hsequence, hname⟩
  rw [h.written sequence hsequence r hname] at hi
  -- Only the instructions between opening and ending branch.
  have hbody : i ∈ r.body listing.messageLabel := by
    rcases List.mem_append.1 hi with hi | hi
    · cases hreturns : r.returns <;> simp [opening, hreturns] at hi
      · subst hi
        cases htarget
      · rcases hi with rfl | rfl <;> cases htarget
    · rcases List.mem_append.1 hi with hi | hi
      · exact hi
      · cases hreturns : r.returns <;> simp [Routine.ending, Ending.code, hreturns] at hi
        subst hi
        cases htarget
  have hleads : Leads (fun _ => False) [] r.callees q.label := Routine.leads_body hbody htarget
  generalize htargetEq : q.label = target at hleads
  cases hleads with
  | inner hn => exact absurd hn List.not_mem_nil
  | routine hcallee => simpa using h.closed r hr _ hcallee
  | function hfalse => exact hfalse.elim
  | library hlibrary =>
    have hother : q.label ∉ libraryFunctions := by cases q <;> decide
    exact absurd (htargetEq ▸ hlibrary) hother

/-- Routines and texts can be added behind what is there. -/
theorem grows (h : listing.Supplied) {added : List Routine} (hgrows : Grows listing after added)
    (hclosed : ClosedBut [] after.names) : after.Supplied where
  distinct := hgrows.distinct h.distinct
  closed := hclosed
  shut := fun r => hgrows.opened ▸ h.shut r
  written := by
    intro sequence hsequence r hname
    rw [hgrows.sequences] at hsequence
    rcases List.mem_append.1 hsequence with hold | hnew
    · have hr : r.label ∈ listing.names := List.mem_map.2 ⟨sequence, hold, hname⟩
      rw [h.written sequence hold r hname]
      exact (sequence_of_texts hgrows.messages (h.texts r hr)).symm
    · obtain ⟨q, _, rfl⟩ := List.mem_map.1 hnew
      obtain rfl : q = r := Routine.label_injective hname
      rfl
  texts := by
    intro r hr text htext
    rw [hgrows.names_eq] at hr
    rcases List.mem_append.1 hr with hold | hnew
    · exact hgrows.messages.subset (h.texts r hold text htext)
    · obtain ⟨q, hq, hlabel⟩ := List.mem_map.1 hnew
      obtain rfl : q = r := Routine.label_injective hlabel
      exact hgrows.texts q hq text htext

/-! ## §3 Writing and storing -/

/-- Code never goes to a routine, since no routine is open. -/
theorem emitAll (h : listing.Supplied) (code : List Instruction) :
    (listing.emitAll code).Supplied ∧ (listing.emitAll code).names = listing.names := by
  cases hopened : listing.opened with
  | nil =>
    have hemit : listing.emitAll code = { listing with header := listing.header ++ code } := by
      simp only [Listing.emitAll, hopened]
    rw [hemit]
    exact ⟨⟨h.distinct, h.closed, h.shut, h.written, h.texts⟩, rfl⟩
  | cons name rest =>
    have hname (r : Routine) : r.label ≠ name := by
      rintro rfl
      exact h.shut r (by simp [hopened])
    let extend : Sequence → Sequence := fun s => if s.name = name then s.append code else s
    have hemit :
        listing.emitAll code = { listing with sequences := listing.sequences.map extend } := by
      simp only [Listing.emitAll, hopened, extend]
    have hextend (s : Sequence) : (extend s).name = s.name := by
      simp only [extend]
      split <;> rfl
    have hnames : (listing.emitAll code).names = listing.names := by
      simp [hemit, names, Function.comp_def, hextend]
    refine ⟨⟨hnames ▸ h.distinct, hnames ▸ h.closed, ?_, ?_, ?_⟩, hnames⟩
    · intro r
      rw [opened_emitAll]
      exact h.shut r
    · intro sequence hsequence r hr
      rw [hemit] at hsequence
      obtain ⟨s, hs, rfl⟩ := List.mem_map.1 hsequence
      rw [hextend] at hr
      -- The sequence of a routine is not the one that is written to.
      have hsame : extend s = s := if_neg fun heq => hname r (hr.symm.trans heq)
      rw [hsame, h.written s hs r hr, hemit]
      rfl
    · intro r hr
      rw [hnames] at hr
      rw [messages_emitAll]
      exact h.texts r hr

/-- A sequence under a name that no routine has. -/
theorem start (h : listing.Supplied) {name : String} (hnew : name ∉ listing.names)
    (hother : ∀ r : Routine, r.label ≠ name) (savesLink : Bool) :
    Supplied { listing with
      sequences := listing.sequences ++ [{ name, code := opening name savesLink }]
      opened := name :: listing.opened } := by
  have hnames : Listing.names { listing with
      sequences := listing.sequences ++ [{ name, code := opening name savesLink }]
      opened := name :: listing.opened } = listing.names ++ [name] := by
    simp [names]
  have hold {r : Routine} (hr : r.label ∈ listing.names ++ [name]) : r.label ∈ listing.names := by
    simpa [hother r] using hr
  refine ⟨?_, ?_, ?_, ?_, ?_⟩
  · rw [hnames, List.nodup_append]
    refine ⟨h.distinct, List.nodup_singleton name, ?_⟩
    rintro a ha b hb rfl
    exact hnew (List.mem_singleton.1 hb ▸ ha)
  · intro r hr q hq
    rw [hnames] at hr ⊢
    exact (h.closed r (hold hr) q hq).imp_left (List.mem_append_left _)
  · intro r hr
    rcases List.mem_cons.1 hr with hr | hr
    · exact hother r hr
    · exact h.shut r hr
  · intro sequence hsequence r hr
    rcases List.mem_append.1 hsequence with hsequence | hsequence
    · exact h.written sequence hsequence r hr
    · obtain rfl := List.mem_singleton.1 hsequence
      exact absurd hr.symm (hother r)
  · intro r hr
    rw [hnames] at hr
    exact h.texts r (hold hr)

/-- Closing a sequence that was opened by hand. -/
theorem finish (h : listing.Supplied) {name : String} {rest : List String}
    (hopened : listing.opened = name :: rest) (ending : Ending) :
    Supplied { listing.emitAll ending.code with opened := rest } := by
  have hemit := (h.emitAll ending.code).1
  refine ⟨hemit.distinct, hemit.closed, fun r hr => ?_, hemit.written, hemit.texts⟩
  exact h.shut r (by simp [hopened, hr])

end Supplied

/-! ## §4 Asking for a routine -/

/-- A routine that is there is not added again. -/
theorem require_of_mem {listing : Listing} {r : Routine} (hr : r.label ∈ listing.names) :
    listing.require r = .ok listing := by
  rcases r.chain_eq with ⟨hchain, _⟩ | ⟨_, hchain, _⟩ <;>
    simp [require, hchain, requireChain, has_iff.2 hr]

/-- The routines of a chain are added in order, up to the first one that is there. -/
theorem requireChain_grows (chain : List Routine) (listing : Listing) :
    ∃ after added, listing.requireChain chain = .ok after ∧ Grows listing after added ∧
      added <+: chain := by
  induction chain generalizing listing with
  | nil => exact ⟨listing, [], rfl, .refl listing, List.prefix_refl _⟩
  | cons r rest ih =>
    by_cases hthere : listing.has r.label
    · exact ⟨listing, [], by simp [requireChain, hthere], .refl listing, List.nil_prefix⟩
    · obtain ⟨mid, hdefine, hgrows⟩ := define_eq_ok fun hmem => hthere (has_iff.2 hmem)
      obtain ⟨after, added, hrest, hmore, hadded⟩ := ih mid
      refine ⟨after, r :: added, ?_, hgrows.trans hmore, List.cons_prefix_cons.2 ⟨rfl, hadded⟩⟩
      simp only [requireChain, hthere, Bool.false_eq_true, if_false, hdefine, bind, Except.bind,
        hrest]

theorem mem_messages_intern_iff {listing : Listing} {text other : String} :
    other ∈ (listing.intern text).messages ↔ other ∈ listing.messages ∨ other = text := by
  unfold intern
  split <;> simp_all

theorem mem_messages_internAll {listing : Listing} {texts : List String} {text : String} :
    text ∈ (texts.foldl intern listing).messages ↔ text ∈ listing.messages ∨ text ∈ texts := by
  induction texts generalizing listing with
  | nil => simp
  | cons first rest ih =>
    rw [List.foldl_cons, ih, mem_messages_intern_iff, List.mem_cons, or_assoc]

/-- Only texts that the routines of a chain load are stored on their behalf. -/
theorem mem_messages_requireChain {chain : List Routine} {listing after : Listing} {text : String}
    (h : listing.requireChain chain = .ok after) (htext : text ∈ after.messages) :
    text ∈ listing.messages ∨ text ∈ chain.flatMap Routine.texts := by
  induction chain generalizing listing with
  | nil =>
    cases h
    exact .inl htext
  | cons r rest ih =>
    rw [List.flatMap_cons]
    by_cases hthere : listing.has r.label
    · simp only [requireChain, hthere, if_true, Except.ok.injEq] at h
      exact .inl (h ▸ htext)
    · have hdefine := define_eq_added fun hmem => hthere (has_iff.2 hmem)
      simp only [requireChain, hthere, Bool.false_eq_true, if_false, hdefine, bind,
        Except.bind] at h
      rcases ih h with hmid | hrest
      · -- The texts of `r` were interned before its sequence was opened.
        exact (mem_messages_internAll.1 hmid).imp_right (List.mem_append_left _)
      · exact .inr (List.mem_append_right _ hrest)

/-- Asking for a routine adds routines of its chain and their texts, and nothing else. -/
theorem Supplied.require {listing : Listing} (h : listing.Supplied) (r : Routine) :
    ∃ after added, listing.require r = .ok after ∧ Grows listing after added ∧
      added <+: r.chain ∧ after.Supplied ∧ r.label ∈ after.names := by
  have hbut : ClosedBut [r] listing.names := fun s hs q hq =>
    (h.closed s hs q hq).imp_right fun hmem => absurd hmem List.not_mem_nil
  obtain ⟨after, added, hrequire, hgrows, hadded⟩ := requireChain_grows r.chain listing
  obtain ⟨after', _, hrequire', _, hclosed, hthere, _⟩ := require_eq_ok r hbut
  obtain rfl : after = after' := Except.ok.inj (hrequire.symm.trans hrequire')
  exact ⟨after, added, hrequire, hgrows, hadded, h.grows hgrows hclosed, hthere⟩

/-! ## §5 What a run adds -/

/-- What a request leaves behind: routines are still in order, and of routines and texts exactly
those were added that the request asks for. -/
structure Served (listing : Listing) (request : Request) (after : Listing) : Prop where
  supplied : after.Supplied
  routines : ∀ r : Routine, r.label ∈ after.names ↔ r.label ∈ listing.names ∨ r ∈ request.supplies
  texts : ∀ text, text ∈ after.messages ↔ text ∈ listing.messages ∨ text ∈ request.needs

namespace Supplied

variable {listing : Listing}

theorem emit_served (h : listing.Supplied) (i : Instruction) :
    Served listing (.plain (.emit i)) (listing.emit i) := by
  obtain ⟨hsupplied, hnames⟩ := h.emitAll [i]
  refine ⟨hsupplied, fun r => ?_, fun text => ?_⟩
  · rw [emit, hnames]
    simp [Request.supplies]
  · simp [emit, Request.needs]

theorem intern_served (h : listing.Supplied) (text : String) :
    Served listing (.plain (.intern text)) (listing.intern text) := by
  have hgrows := Grows.intern listing text
  have hnames : (listing.intern text).names = listing.names := by simpa using hgrows.names_eq
  refine ⟨h.grows hgrows (hnames ▸ h.closed), fun r => ?_, fun other => ?_⟩
  · simp [hnames, Request.supplies]
  · simp [mem_messages_intern_iff, Request.needs]

theorem start_served (h : listing.Supplied) {name : String} (savesLink : Bool)
    (hspares : Request.Spares (.plain (.start name savesLink))) :
    Served listing (.plain (.start name savesLink))
      (listing.keep (listing.start name savesLink)) := by
  by_cases hthere : name ∈ listing.names
  · rw [start_of_mem savesLink hthere]
    exact ⟨h, fun r => by simp [keep, Request.supplies], fun text => by simp [keep, Request.needs]⟩
  · have hother (r : Routine) : r.label ≠ name := fun heq =>
      hspares (List.mem_map.2 ⟨r, Routine.mem_all r, heq⟩)
    rw [start_of_new savesLink hthere]
    refine ⟨h.start hthere hother savesLink, fun r => ?_, fun text => ?_⟩
    · simp [keep, names, Request.supplies, hother r]
    · simp [keep, Request.needs]

theorem finish_served (h : listing.Supplied) (ending : Ending) :
    Served listing (.plain (.finish ending)) (listing.keep (listing.finish ending)) := by
  cases hopened : listing.opened with
  | nil =>
    simp only [Listing.finish, hopened]
    exact ⟨h, fun r => by simp [keep, Request.supplies], fun text => by simp [keep, Request.needs]⟩
  | cons name rest =>
    simp only [Listing.finish, hopened]
    have hnames := (h.emitAll ending.code).2
    refine ⟨h.finish hopened ending, fun r => ?_, fun text => ?_⟩
    · show r.label ∈ (listing.emitAll ending.code).names ↔ _
      rw [hnames]
      simp [Request.supplies]
    · simp [keep, Request.needs]

theorem routine_served (h : listing.Supplied) (r : Routine) :
    Served listing (.routine r) (listing.keep (listing.require r)) := by
  obtain ⟨after, added, hrequire, hgrows, hadded, hsupplied, hthere⟩ := h.require r
  have hchain := chain_present hsupplied.closed r hthere
  rw [hrequire]
  refine ⟨hsupplied, fun q => ?_, fun text => ?_⟩
  · show q.label ∈ after.names ↔ q.label ∈ listing.names ∨ q ∈ r.chain
    constructor
    · intro hq
      rw [hgrows.names_eq] at hq
      refine (List.mem_append.1 hq).imp_right fun hnew => ?_
      obtain ⟨s, hs, hlabel⟩ := List.mem_map.1 hnew
      exact Routine.label_injective hlabel ▸ hadded.subset hs
    · rintro (hold | hq)
      · rw [hgrows.names_eq]
        exact List.mem_append_left _ hold
      · exact hchain q hq
  · show text ∈ after.messages ↔ text ∈ listing.messages ∨ text ∈ r.chain.flatMap Routine.texts
    constructor
    · exact mem_messages_requireChain hrequire
    · rintro (hold | hneeded)
      · exact hgrows.messages.subset hold
      · obtain ⟨q, hq, htext⟩ := List.mem_flatMap.1 hneeded
        exact hsupplied.texts q (hchain q hq) text htext

/-- One request. -/
theorem served (h : listing.Supplied) {request : Request} (hspares : request.Spares) :
    Served listing request (listing.keep (listing.answer request)) := by
  cases request with
  | routine r => exact h.routine_served r
  | plain operation =>
    cases operation with
    | emit i => exact h.emit_served i
    | start name savesLink => exact h.start_served savesLink hspares
    | finish ending => exact h.finish_served ending
    | intern text => exact h.intern_served text

/-- A whole run of requests adds what its requests ask for, each on its own. -/
theorem serveAll (h : listing.Supplied) {requests : List Request}
    (hspares : ∀ request ∈ requests, request.Spares) :
    (listing.serveAll requests).Supplied ∧
    (∀ r : Routine, r.label ∈ (listing.serveAll requests).names ↔
      r.label ∈ listing.names ∨ r ∈ requests.flatMap Request.supplies) ∧
    ∀ text, text ∈ (listing.serveAll requests).messages ↔
      text ∈ listing.messages ∨ text ∈ requests.flatMap Request.needs := by
  induction requests generalizing listing with
  | nil => exact ⟨h, fun r => by simp [Listing.serveAll], fun text => by simp [Listing.serveAll]⟩
  | cons request rest ih =>
    have hfirst := h.served (hspares request List.mem_cons_self)
    obtain ⟨hsupplied, hroutines, htexts⟩ :=
      ih hfirst.supplied fun other hother => hspares other (List.mem_cons_of_mem _ hother)
    refine ⟨hsupplied, fun r => ?_, fun text => ?_⟩
    · rw [List.flatMap_cons, List.mem_append, ← or_assoc, ← hfirst.routines]
      exact hroutines r
    · rw [List.flatMap_cons, List.mem_append, ← or_assoc, ← hfirst.texts]
      exact htexts text

end Supplied

/-! ## §6 Routines on demand -/

/-- The routines that a run asks for are told from the requests for routines in it. -/
theorem mem_supplies_iff {requests : List Request} {r : Routine} :
    r ∈ requests.flatMap Request.supplies ↔ ∃ q, .routine q ∈ requests ∧ r ∈ q.chain := by
  rw [List.mem_flatMap]
  constructor
  · rintro ⟨request, hrequest, hr⟩
    cases request with
    | routine q => exact ⟨q, hrequest, hr⟩
    | plain operation => exact absurd hr List.not_mem_nil
  · rintro ⟨q, hq, hr⟩
    exact ⟨.routine q, hq, hr⟩

/-- The texts that a run needs are told from its requests for routines and texts. -/
theorem mem_needs_iff {requests : List Request} {text : String} :
    text ∈ requests.flatMap Request.needs ↔ .plain (.intern text) ∈ requests ∨
      ∃ q, .routine q ∈ requests ∧ text ∈ q.chain.flatMap Routine.texts := by
  rw [List.mem_flatMap]
  constructor
  · rintro ⟨request, hrequest, htext⟩
    cases request with
    | routine q => exact .inr ⟨q, hrequest, htext⟩
    | plain operation =>
      cases operation with
      | intern other =>
        obtain rfl : text = other := List.mem_singleton.1 htext
        exact .inl hrequest
      | emit | start | finish => exact absurd htext List.not_mem_nil
  · rintro (hintern | ⟨q, hq, htext⟩)
    · exact ⟨_, hintern, List.mem_singleton_self text⟩
    · exact ⟨.routine q, hq, htext⟩

/-- Take any listing that requests lead to, none of which opens a sequence under a routine's name.
Asking it for a routine succeeds, with the label to call; it leaves what is open, the header and the
sequences that are there as they are, and adds texts and routines behind the others, the wanted one
among them. From then on asking for the routine changes nothing, whatever was done in between. The
routines that are present are present once, and so are those that their code calls. Two runs that
ask for the same routines and intern the same texts, in whatever order, as often as they like and
with anything else in between, end with the same routines and the same texts. -/
theorem routines_on_demand {requests : List Request}
    (hspares : ∀ request ∈ requests, request.Spares) :
    let listing := ({} : Listing).serveAll requests
    (∀ r : Routine, ∃ after added,
      listing.require r = .ok after ∧
      (∀ limit cond, listing.expand limit (.routine cond r) =
        .ok ([.branch true cond r.label], after)) ∧
      after.opened = listing.opened ∧ after.header = listing.header ∧
      after.sequences = listing.sequences ++
        (added : List Routine).map (·.sequence after.messageLabel) ∧
      listing.messages <+: after.messages ∧ r.label ∈ after.names ∧
      ∀ more : List Request, (∀ request ∈ more, request.Spares) →
        (after.serveAll more).require r = .ok (after.serveAll more)) ∧
    (∀ r q : Routine, ∀ sequence ∈ listing.sequences, sequence.name = r.label →
      ∀ i ∈ sequence.code, i.target? = some q.label → q.label ∈ listing.names) ∧
    (∀ r : Routine, listing.names.count r.label ≤ 1) ∧
    ∀ a b : List Request, (∀ request ∈ a, request.Spares) → (∀ request ∈ b, request.Spares) →
      (∀ r, .routine r ∈ a ↔ .routine r ∈ b) →
      (∀ text, .plain (.intern text) ∈ a ↔ .plain (.intern text) ∈ b) →
      (∀ r : Routine, r.label ∈ (listing.serveAll a).names ↔ r.label ∈ (listing.serveAll b).names) ∧
      ∀ text, text ∈ (listing.serveAll a).messages ↔ text ∈ (listing.serveAll b).messages := by
  intro listing
  have hsupplied : listing.Supplied := (supplied_empty.serveAll hspares).1
  refine ⟨fun r => ?_, ?_, fun r => ?_, ?_⟩
  · obtain ⟨after, added, hrequire, hgrows, _, hafter, hthere⟩ := hsupplied.require r
    refine ⟨after, added, hrequire, ?_, hgrows.opened, hgrows.header, hgrows.sequences,
      hgrows.messages, hthere, ?_⟩
    · intro limit cond
      simp [expand, hrequire, bind, Except.bind]
    · -- Requests take no routine away.
      intro more hmore
      exact require_of_mem (((hafter.serveAll hmore).2.1 r).2 (.inl hthere))
  · intro r q sequence hsequence hname i hi htarget
    exact hsupplied.callee_present hsequence hname hi htarget
  · exact List.nodup_iff_count_le_one.1 hsupplied.distinct r.label
  · intro a b ha hb hroutines htexts
    obtain ⟨_, hra, hta⟩ := hsupplied.serveAll ha
    obtain ⟨_, hrb, htb⟩ := hsupplied.serveAll hb
    refine ⟨fun r => ?_, fun text => ?_⟩
    · rw [hra, hrb, mem_supplies_iff, mem_supplies_iff]
      simp only [hroutines]
    · rw [hta, htb, mem_needs_iff, mem_needs_iff]
      simp only [hroutines, htexts]

/-- A function is opened, and asks for a routine in the middle of its code. -/
def checkingRequests : List Request :=
  [.plain (.start "f_get" true), .routine .checkArrayBounds, .plain (.emit (.pop .pc))]

/-- Both checks need the routines that report an error, which come once. -/
theorem routines_on_demand_checkingRequests :
    (∀ request ∈ checkingRequests, request.Spares) ∧
      ∃ after, (({} : Listing).serveAll checkingRequests).require .throwOverflow = .ok after ∧
        after.opened = ["f_get"] ∧
        after.names = ["f_get", "p_check_array_bounds", "p_throw_runtime_error", "p_print_string",
          "p_throw_overflow_error"] ∧
        after.require .throwOverflow = .ok after := by
  have hspares : ∀ request ∈ checkingRequests, request.Spares := by decide
  obtain ⟨after, _, hrequire, _, hopened, _, _, _, _, hagain⟩ :=
    (routines_on_demand hspares).1 .throwOverflow
  refine ⟨hspares, after, hrequire, ?_, ?_, hagain [] (by simp)⟩
  · rw [hopened]
    decide
  · have hnames :
        ((({} : Listing).serveAll checkingRequests).require .throwOverflow).toOption.map names =
          some ["f_get", "p_check_array_bounds", "p_throw_runtime_error", "p_print_string",
            "p_throw_overflow_error"] := by
      decide +kernel
    simpa [hrequire, Except.toOption] using hnames

end Listing

end ArmCompiler
