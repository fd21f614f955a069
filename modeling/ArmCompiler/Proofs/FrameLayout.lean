import ArmCompiler.Proofs.OwnedSlots
import ArmCompiler.Proofs.Preservation.State
import ArmCompiler.Proofs.WordFrames

/-!
# Frames under Stack Discipline

What a frame in words says about its variables while scopes are opened and closed and bytes are
pushed and popped, as long as the two nest like one stack. A session keeps, beside the frame, what
lies on that stack: each open scope with the frame from before it, and all pushed bytes. What a
lookup answers can be told from the operations alone: the declaration that a name means is the
latest one in the innermost scope that has one, and its distance from the saved link register is
the one it was given. Closing a scope brings back the frame from before it. All this holds whatever
wraps around, because a frame is the words of one without bounds.

Whether slots overlap and whether a declaration finds one depends on the sizes. As long as all that
lies on the stack has its place in the range of a word, each declaration gets a slot of its own until
the scope is full. Main statement: `layout_of_run`.

## Contents
- §1: operations
- §2: what the stack says about the frame
- §3: lookups
- §4: steps and runs
- §5: slots
- §6: the layout of a run
-/

namespace ArmCompiler

open ArmCompiler.Frame (Local Placed)

namespace WordFrame

/-! ## §1 Operations -/

/-- What is done with a frame. -/
inductive Operation where
  | openScope (count : Nat)
  | closeScope
  | declare (name : String) (ty : Ty)
  | pushTemp (bytes : Int32)
  | popTemp (bytes : Int32)
  deriving DecidableEq

/-- What was put on the stack and not yet taken off. -/
inductive Part where
  /-- A scope: the frame just before it was opened, the count that it was opened for, and the
  names declared in it with the moments of their declarations, latest first. -/
  | scope (before : WordFrame) (count : Nat) (declared : List (String × Nat))
  /-- Pushed bytes, with the depth at which they begin. -/
  | temp (base bytes : Int32)
  deriving DecidableEq

/-- The declarations of a part. -/
def Part.declared : Part → List (String × Nat)
  | .scope _ _ declared => declared
  | .temp .. => []

/-- The bytes that a part would take if words had no bounds. -/
def Part.bytes : Part → Int
  | .scope _ count _ => slotBytes * count
  | .temp _ bytes => bytes.toInt

/-- The bytes that parts would take if words had no bounds. -/
def extent (parts : List Part) : Int := (parts.map (·.bytes)).sum

@[simp] theorem extent_cons (part : Part) (outer : List Part) :
    extent (part :: outer) = part.bytes + extent outer := rfl

/-- Notes a declaration in the innermost scope. -/
def noteDeclared (name : String) (moment : Nat) : List Part → List Part
  | [] => []
  | .scope before count declared :: outer =>
    .scope before count ((name, moment) :: declared) :: outer
  | .temp base bytes :: outer => .temp base bytes :: noteDeclared name moment outer

/-- The innermost scope: the count that it was opened for and its declarations. -/
def innermost? : List Part → Option (Nat × List (String × Nat))
  | [] => none
  | .scope _ count declared :: _ => some (count, declared)
  | .temp .. :: outer => innermost? outer

/-- The moment of the declaration that a name means. -/
def visible? (parts : List Part) (name : String) : Option Nat :=
  parts.findSome? fun part => part.declared.lookup name

@[simp] theorem visible?_temp (base bytes : Int32) (outer : List Part) (name : String) :
    visible? (.temp base bytes :: outer) name = visible? outer name := rfl

@[simp] theorem visible?_scope (before : WordFrame) (count : Nat) (declared : List (String × Nat))
    (outer : List Part) (name : String) :
    visible? (.scope before count declared :: outer) name =
      (declared.lookup name).or (visible? outer name) := by
  rw [visible?, List.findSome?_cons]
  cases hlookup : declared.lookup name <;> simp [Part.declared, hlookup, visible?]

/-- A frame in use: the parts of the stack from the inside out, and how many operations there
were. -/
structure Session where
  frame : WordFrame
  parts : List Part := []
  moment : Nat := 0
  deriving DecidableEq

namespace Session

/-- The session at the entry of a function. -/
def start (params : List Param) : Session := { frame := ofParams params }

/-- Performs an operation. There is no answer if it breaks the nesting: a scope is closed when it
is on top of the stack, and bytes, whole slots of them, are popped when as many are on top. -/
def next (s : Session) : Operation → Option Session
  | .openScope count => some {
      frame := (s.frame.openScope count).2
      parts := .scope s.frame count [] :: s.parts
      moment := s.moment + 1 }
  | .closeScope =>
    match s.parts with
    | .scope .. :: outer =>
      some { frame := s.frame.closeScope.2, parts := outer, moment := s.moment + 1 }
    | _ => none
  | .declare name ty =>
    match (declare name ty).run s.frame with
    | .ok _ frame =>
      some { frame, parts := noteDeclared name s.moment s.parts, moment := s.moment + 1 }
    | .error _ frame => some { s with frame, moment := s.moment + 1 }
  | .pushTemp bytes =>
    if 0 ≤ bytes.toInt ∧ (slotBytes : Int) ∣ bytes.toInt then some {
      frame := s.frame.pushTemp bytes
      parts := .temp s.frame.depth bytes :: s.parts
      moment := s.moment + 1 }
    else none
  | .popTemp bytes =>
    match s.parts with
    | .temp _ pushed :: outer =>
      if bytes = pushed then
        some { frame := s.frame.popTemp bytes, parts := outer, moment := s.moment + 1 }
      else none
    | _ => none

/-- Performs operations one after the other. -/
def run (s : Session) (ops : List Operation) : Option Session := ops.foldlM next s

theorem run_append (s : Session) (ops : List Operation) (op : Operation) :
    s.run (ops ++ [op]) = (s.run ops).bind (·.next op) := by
  simp [run, List.foldlM_append]

/-- Every operation counts. -/
theorem moment_next {s s' : Session} {op : Operation} (h : s.next op = some s') :
    s'.moment = s.moment + 1 := by
  revert h
  unfold next
  repeat' split
  all_goals
    intro h
    cases h <;> rfl

theorem moment_run {s s' : Session} {ops : List Operation} (h : s.run ops = some s') :
    s'.moment = s.moment + ops.length := by
  induction ops using List.reverseRecOn generalizing s' with
  | nil =>
    cases h
    rfl
  | append_singleton ops op ih =>
    rw [run_append] at h
    obtain ⟨mid, hmid, hnext⟩ := Option.bind_eq_some_iff.1 h
    rw [moment_next hnext, ih hmid, List.length_append, List.length_singleton, Nat.add_assoc]

end Session

/-! ## §2 What the stack says about the frame -/

/-- The frame with a scope that has a number of slots and variables in the first of them. -/
def opened (frame : Frame) (count : Nat) (locals : List (String × Local)) : Frame := { frame with
  scopes := { base := frame.depth, slots := count, locals } :: frame.scopes
  depth := frame.depth + slotBytes * count }

theorem closeScope_opened (frame : Frame) (count : Nat) (locals : List (String × Local)) :
    (opened frame count locals).closeScope = frame := by
  simp [opened, Frame.closeScope, Frame.scopeBytes]

/-- In the range of a word a comparison is right, so what the words allow finds a slot. -/
theorem lt_of_allowed {base : Int} {count taken : Nat} (hbase : 0 ≤ base) (hfits : taken ≤ count)
    (hsmall : base + slotBytes * count + slotBytes < 2 ^ 31)
    (hallowed : ¬ Int32.ofInt (base + slotBytes * count) <
      Int32.ofInt (base + (slotBytes * (taken + 1) : Nat))) : taken < count := by
  simp only [slotBytes] at hsmall hallowed
  rw [Frame.ofInt_lt_ofInt (by omega) (by omega)] at hallowed
  omega

variable {Born : Nat → String → Local → Prop} {params : List Param} {frame : Frame}
  {parts : List Part} {name : String}

/-- A frame without bounds is the one from the entry of the function with the parts of the stack put
on it. The variables of each scope are the names declared in it, and `Born` tells of each place that
the declaration at the moment gave it to the name. In a scope that ends in the range of a word there
are not more variables than slots. -/
def Tracks (Born : Nat → String → Local → Prop) (params : List Param) :
    List Part → Frame → Prop
  | [], frame => frame = Frame.ofParams params
  | .scope before count declared :: outer, frame =>
    ∃ inner locals, before = inner.word ∧ frame = opened inner count locals ∧
      Placed inner.depth locals ∧
      List.Forall₂ (fun entry noted => noted.1 = entry.1 ∧ Born noted.2 entry.1 entry.2)
        locals declared ∧
      (frame.depth + slotBytes < 2 ^ 31 → locals.length ≤ count) ∧ Tracks Born params outer inner
  | .temp base bytes :: outer, frame =>
    ∃ inner, base = Int32.ofInt inner.depth ∧ 0 ≤ bytes.toInt ∧
      frame = inner.pushTemp bytes.toInt ∧ Tracks Born params outer inner

namespace Tracks

theorem mono {Born' : Nat → String → Local → Prop}
    (himp : ∀ moment name l, Born moment name l → Born' moment name l)
    (h : Tracks Born params parts frame) : Tracks Born' params parts frame := by
  induction parts generalizing frame with
  | nil => exact h
  | cons part outer ih =>
    cases part with
    | scope before count declared =>
      obtain ⟨inner, locals, hbefore, hframe, hplaced, hnames, hroom, houter⟩ := h
      exact ⟨inner, locals, hbefore, hframe, hplaced,
        hnames.imp fun _ _ hborn => ⟨hborn.1, himp _ _ _ hborn.2⟩, hroom, ih houter⟩
    | temp base bytes =>
      obtain ⟨inner, hbase, hbytes, hframe, houter⟩ := h
      exact ⟨inner, hbase, hbytes, hframe, ih houter⟩

/-- No operation touches the parameters. -/
theorem params_eq (h : Tracks Born params parts frame) :
    frame.params = (Frame.ofParams params).params := by
  induction parts generalizing frame with
  | nil => rw [show frame = Frame.ofParams params from h]
  | cons part outer ih =>
    cases part with
    | scope before count declared =>
      obtain ⟨inner, _, _, rfl, _, _, _, houter⟩ := h
      have hinner := ih houter
      exact hinner
    | temp base bytes =>
      obtain ⟨inner, _, _, rfl, houter⟩ := h
      have hinner := ih houter
      exact hinner

/-- The depth is the sum of what lies on the stack. -/
theorem depth_eq (h : Tracks Born params parts frame) : frame.depth = extent parts := by
  induction parts generalizing frame with
  | nil =>
    rw [show frame = Frame.ofParams params from h]
    rfl
  | cons part outer ih =>
    cases part with
    | scope before count declared =>
      obtain ⟨inner, _, _, rfl, _, _, _, houter⟩ := h
      rw [extent_cons, ← ih houter, Int.add_comm]
      rfl
    | temp base bytes =>
      obtain ⟨inner, _, _, rfl, houter⟩ := h
      rw [extent_cons, ← ih houter, Int.add_comm]
      rfl

theorem depth_nonneg (h : Tracks Born params parts frame) : 0 ≤ frame.depth := by
  induction parts generalizing frame with
  | nil =>
    rw [show frame = Frame.ofParams params from h]
    exact Int.le_refl 0
  | cons part outer ih =>
    cases part with
    | scope before count declared =>
      obtain ⟨inner, _, _, rfl, _, _, _, houter⟩ := h
      have hinner := ih houter
      simp only [opened, slotBytes]
      omega
    | temp base bytes =>
      obtain ⟨inner, _, hbytes, rfl, houter⟩ := h
      have hinner := ih houter
      simp only [Frame.pushTemp]
      omega

/-- There is room for as many variables as the innermost scope has slots but no declarations
for. -/
theorem room_eq (h : Tracks Born params parts frame) :
    frame.room = match innermost? parts with
      | none => 0
      | some (count, declared) => count - declared.length := by
  induction parts generalizing frame with
  | nil =>
    rw [show frame = Frame.ofParams params from h]
    rfl
  | cons part outer ih =>
    cases part with
    | scope before count declared =>
      obtain ⟨inner, locals, _, rfl, _, hnames, _, _⟩ := h
      show _ = (count : Int) - declared.length
      rw [← hnames.length_eq]
      rfl
    | temp base bytes =>
      obtain ⟨inner, _, _, rfl, houter⟩ := h
      have hinner := ih houter
      exact hinner

/-- A declaration that the words allow is one more of the innermost scope. -/
theorem add {scope : Frame.Scope} {outer : List Frame.Scope} {ty : Ty} {moment : Nat}
    (h : Tracks Born params parts frame) (hscopes : frame.scopes = scope :: outer)
    (hallowed : ¬ Int32.ofInt (scope.base + slotBytes * scope.slots) <
      Int32.ofInt (scope.next ty).position)
    (hborn : Born moment name (scope.next ty)) :
    Tracks Born params (noteDeclared name moment parts) (frame.add name ty) := by
  induction parts generalizing frame with
  | nil =>
    rw [show frame = Frame.ofParams params from h] at hscopes
    cases hscopes
  | cons part inner ih =>
    cases part with
    | scope before count declared =>
      obtain ⟨inner, locals, hbefore, rfl, hplaced, hnames, hroom, houter⟩ := h
      cases hscopes
      refine ⟨inner, _, hbefore, rfl, ⟨rfl, hplaced⟩, .cons ⟨rfl, hborn⟩ hnames, ?_, houter⟩
      exact fun hsmall => lt_of_allowed houter.depth_nonneg (hroom hsmall) hsmall hallowed
    | temp base bytes =>
      obtain ⟨inner, hbase, hbytes, rfl, houter⟩ := h
      refine ⟨inner.add name ty, ?_, hbytes, ?_, ih houter hscopes⟩
      · rw [Frame.add, show inner.scopes = _ from hscopes]
        exact hbase
      · rw [Frame.add, Frame.add, show inner.scopes = _ from hscopes,
          show (inner.pushTemp bytes.toInt).scopes = _ from hscopes]
        rfl

end Tracks

/-! ## §3 Lookups -/

/-- Lists that go together answer a lookup together. -/
theorem lookup_of_forall₂ {locals : List (String × Local)} {declared : List (String × Nat)}
    (h : List.Forall₂ (fun entry noted => noted.1 = entry.1 ∧ Born noted.2 entry.1 entry.2)
      locals declared) (name : String) :
    (declared.lookup name = none ∧ locals.lookup name = none) ∨
      ∃ moment l, declared.lookup name = some moment ∧ locals.lookup name = some l ∧
        Born moment name l := by
  induction h with
  | nil => exact .inl ⟨rfl, rfl⟩
  | @cons entry noted locals declared hborn _ ih =>
    obtain ⟨declaredName, moment⟩ := noted
    obtain ⟨entryName, l⟩ := entry
    obtain ⟨rfl, hborn⟩ := hborn
    by_cases hsame : name = declaredName
    · subst hsame
      exact .inr ⟨moment, l, by simp, by simp, hborn⟩
    · simpa [List.lookup_cons, beq_false_of_ne hsame] using ih

/-- A variable is one of the innermost scope, or what it was before the scope was opened. -/
theorem local?_opened (inner : Frame) (count : Nat) (locals : List (String × Local))
    (name : String) :
    (opened inner count locals).local? name = (locals.lookup name).or (inner.local? name) := by
  simp only [Frame.local?, opened, List.findSome?_cons]
  cases locals.lookup name <;> rfl

/-- A name means the place that its latest declaration in sight was given, and without one the
place it has at the entry of the function. -/
theorem Tracks.local? (h : Tracks Born params parts frame) (name : String) :
    (visible? parts name = none ∧ frame.local? name = (Frame.ofParams params).local? name) ∨
      ∃ moment l, visible? parts name = some moment ∧ frame.local? name = some l ∧
        Born moment name l := by
  induction parts generalizing frame with
  | nil =>
    rw [show frame = Frame.ofParams params from h]
    exact .inl ⟨rfl, rfl⟩
  | cons part outer ih =>
    cases part with
    | scope before count declared =>
      obtain ⟨inner, locals, _, rfl, _, hnames, _, houter⟩ := h
      rw [local?_opened, visible?_scope]
      rcases lookup_of_forall₂ hnames name with ⟨hnone, hnone'⟩ | ⟨moment, l, hsome, hsome', hborn⟩
      · simpa [hnone, hnone'] using ih houter
      · simpa [hsome, hsome'] using hborn
    | temp base bytes =>
      obtain ⟨inner, _, _, rfl, houter⟩ := h
      simpa using ih houter

/-- Of parameters with different names each is found in its place. -/
theorem local?_ofParams (hdistinct : (params.map (·.name)).Nodup) {index : Nat} {param : Param}
    (hparam : params[index]? = some param) :
    (Frame.ofParams params).local? param.name = some (Frame.paramLocal index param) := by
  have hlocal : (Frame.ofParams params).local? param.name =
      (Frame.ofParams params).params.lookup param.name := rfl
  rw [hlocal]
  cases hlookup : (Frame.ofParams params).params.lookup param.name with
  | none =>
    have habsent := List.lookup_eq_none_iff.1 hlookup _
      (Frame.mem_ofParams.2 ⟨index, param, hparam, rfl⟩)
    simp at habsent
  | some l =>
    obtain ⟨other, param', hparam', hentry⟩ :=
      Frame.mem_ofParams.1 (Frame.mem_of_lookup hlookup)
    obtain ⟨hname, rfl⟩ := Prod.mk.inj hentry
    -- Two parameters of one name are one.
    have hsame : index = other := by
      have hlt : index < (params.map (·.name)).length := by
        rw [List.length_map]
        exact (List.getElem?_eq_some_iff.1 hparam).1
      refine (List.getElem?_inj hlt hdistinct).1 ?_
      simp [hparam, hparam', hname]
    subst hsame
    rw [hparam] at hparam'
    cases hparam'
    rfl

/-! ## §4 Steps and runs -/

/-- The declaration at a moment gave a name its place. -/
def GivenAt (params : List Param) (ops : List Operation) (moment : Nat) (name : String)
    (l : Local) : Prop :=
  ops[moment]? = some (.declare name l.ty) ∧
    ∃ s after, (Session.start params).run (ops.take moment) = some s ∧
      (declare name l.ty).run s.frame = .ok (s.frame.depth - Int32.ofInt l.position) after

theorem GivenAt.append {ops : List Operation} {moment : Nat} {l : Local}
    (h : GivenAt params ops moment name l) (op : Operation) :
    GivenAt params (ops ++ [op]) moment name l := by
  obtain ⟨hop, hrun⟩ := h
  have hlt : moment < ops.length := (List.getElem?_eq_some_iff.1 hop).1
  refine ⟨by rw [List.getElem?_append_left hlt, hop], ?_⟩
  rwa [List.take_append_of_le_length (Nat.le_of_lt hlt)]

/-- A declaration either has not changed the frame, or has added the variable to it. -/
theorem declare_word_cases (frame : Frame) (name : String) (ty : Ty) :
    (declare name ty).run frame.word = .error (.internal (.noSlotLeft name)) frame.word ∨
      ∃ scope outer, frame.scopes = scope :: outer ∧
        ¬ Int32.ofInt (scope.base + slotBytes * scope.slots) <
          Int32.ofInt (scope.next ty).position ∧
        (declare name ty).run frame.word =
          .ok (Int32.ofInt (frame.offset (scope.next ty))) (frame.add name ty).word := by
  cases hscopes : frame.scopes with
  | nil => exact .inl (Frame.declare_word_nil hscopes name ty)
  | cons scope outer =>
    have hrun := Frame.declare_word_cons hscopes name ty
    split at hrun
    · exact .inl hrun
    · rename_i hallowed
      exact .inr ⟨scope, outer, rfl, hallowed, hrun⟩

/-- Each operation keeps the frame what the stack says it is. -/
theorem Tracks.next {ops : List Operation} {s s' : Session} {op : Operation}
    (h : Tracks (GivenAt params ops) params s.parts frame) (hframe : s.frame = frame.word)
    (hrun : (Session.start params).run ops = some s) (hnext : s.next op = some s') :
    ∃ frame', s'.frame = frame'.word ∧
      Tracks (GivenAt params (ops ++ [op])) params s'.parts frame' := by
  have h := h.mono fun _ _ _ hgiven => GivenAt.append hgiven op
  cases op with
  | openScope count =>
    cases hnext
    refine ⟨frame.openScope count, ?_, frame, [], hframe, rfl, trivial, .nil, ?_, h⟩
    · show (s.frame.openScope count).2 = _
      rw [hframe, Frame.word_openScope]
    · exact fun _ => Nat.zero_le count
  | closeScope =>
    cases hparts : s.parts with
    | nil => simp [Session.next, hparts] at hnext
    | cons part outer =>
      cases part with
      | temp => simp [Session.next, hparts] at hnext
      | scope before count declared =>
        rw [hparts] at h
        obtain ⟨inner, locals, _, rfl, _, _, _, houter⟩ := h
        simp only [Session.next, hparts, Option.some.injEq] at hnext
        subst hnext
        -- Whatever the scope declared, closing it leaves the frame from before.
        refine ⟨inner, ?_, houter⟩
        show s.frame.closeScope.2 = _
        rw [hframe, Frame.word_closeScope, closeScope_opened]
  | declare name ty =>
    rcases declare_word_cases frame name ty with hrefused | ⟨scope, outer, hscopes, hallowed, hdone⟩
    · simp only [Session.next, hframe, hrefused, Option.some.injEq] at hnext
      subst hnext
      exact ⟨frame, rfl, h⟩
    · simp only [Session.next, hframe, hdone, Option.some.injEq] at hnext
      subst hnext
      -- A moment counts the operations before it, also those that failed.
      have hmoment : s.moment = ops.length := by
        rw [Session.moment_run hrun]
        exact Nat.zero_add _
      refine ⟨frame.add name ty, rfl, h.add hscopes hallowed ?_⟩
      rw [hmoment]
      refine ⟨by simp [Frame.Scope.next], s, (frame.add name ty).word, by rwa [List.take_left], ?_⟩
      rw [hframe, show (scope.next ty).ty = ty from rfl, hdone, Frame.offset, Int32.ofInt_sub]
      rfl
  | pushTemp bytes =>
    simp only [Session.next] at hnext
    split at hnext
    · rename_i hbytes
      cases hnext
      refine ⟨frame.pushTemp bytes.toInt, ?_, frame, ?_, hbytes.1, rfl, h⟩
      · show s.frame.pushTemp bytes = _
        rw [hframe, ← Frame.word_pushTemp, Int32.ofInt_toInt]
      · rw [hframe]
        rfl
    · cases hnext
  | popTemp bytes =>
    cases hparts : s.parts with
    | nil => simp [Session.next, hparts] at hnext
    | cons part outer =>
      cases part with
      | scope => simp [Session.next, hparts] at hnext
      | temp base pushed =>
        rw [hparts] at h
        obtain ⟨inner, _, _, rfl, houter⟩ := h
        simp only [Session.next, hparts] at hnext
        split at hnext
        · next hbytes =>
          cases hnext
          subst hbytes
          refine ⟨inner, ?_, houter⟩
          show s.frame.popTemp bytes = _
          rw [hframe, ← Int32.ofInt_toInt bytes, Frame.word_popTemp, Int32.ofInt_toInt,
            Frame.popTemp_pushTemp]
        · cases hnext

/-- At every moment of a run the frame is what the stack says it is. -/
theorem Tracks.run {ops : List Operation} {s : Session}
    (hrun : (Session.start params).run ops = some s) :
    ∃ frame, s.frame = frame.word ∧ Tracks (GivenAt params ops) params s.parts frame := by
  induction ops using List.reverseRecOn generalizing s with
  | nil =>
    cases hrun
    exact ⟨Frame.ofParams params, Frame.word_ofParams params, rfl⟩
  | append_singleton ops op ih =>
    rw [Session.run_append] at hrun
    obtain ⟨mid, hmid, hnext⟩ := Option.bind_eq_some_iff.1 hrun
    obtain ⟨frame, hframe, htracks⟩ := ih hmid
    exact htracks.next hframe hmid hnext

/-! ## §5 Slots -/

end WordFrame

namespace Frame

variable {params : List Param} {frame : Frame}

/-- All variables that a frame holds, also those that others hide. -/
def bindings (frame : Frame) : List (String × Local) := frame.locals ++ frame.params

/-- The slots of two variables have no byte in common. -/
def Apart (frame : Frame) (a b : String × Local) : Prop :=
  frame.offset a.2 + slotBytes ≤ frame.offset b.2 ∨
    frame.offset b.2 + slotBytes ≤ frame.offset a.2

theorem apart_params (frame : Frame) (params : List Param) :
    (ofParams params).params.Pairwise frame.Apart := by
  rw [ofParams, List.pairwise_reverse, List.pairwise_iff_getElem]
  intro i j hi hj hlt
  simp only [List.getElem_mapIdx, Apart, offset, paramLocal, slotBytes]
  omega

/-- In a frame that is laid out all variables lie in slots of their own. -/
theorem Laid.apart (h : frame.Laid) (hparams : frame.params = (ofParams params).params) :
    frame.bindings.Pairwise frame.Apart := by
  refine List.pairwise_append.2 ⟨h.pairwise.imp ?_, ?_, ?_⟩
  · intro a b hbelow
    simp only [SlotBelow, Apart, offset, slotBytes] at hbelow ⊢
    omega
  · rw [hparams]
    exact apart_params frame params
  · intro a ha b hb
    have hlocal := (h.bounds ha).1
    have hparam := h.params b hb
    simp only [Apart, offset, slotBytes] at hlocal hparam ⊢
    omega

end Frame

namespace WordFrame

variable {Born : Nat → String → Local → Prop} {params : List Param} {frame : Frame}
  {parts : List Part} {name : String}

/-- The variables of the open scopes, also those that others hide. -/
def locals (frame : WordFrame) : List (String × Int32 × Ty) := frame.scopes.flatMap (·.entries)

/-- All variables that a frame holds, also those that others hide. -/
def bindings (frame : WordFrame) : List (String × Int32 × Ty) :=
  frame.locals ++ frame.root.entries

/-- How far above the stack pointer a variable begins. -/
def distance (frame : WordFrame) (entry : String × Int32 × Ty) : Int :=
  (frame.depth - entry.2.1).toInt

/-- The slots of two variables have no byte in common. -/
def Apart (frame : WordFrame) (a b : String × Int32 × Ty) : Prop :=
  frame.distance a + slotBytes ≤ frame.distance b ∨
    frame.distance b + slotBytes ≤ frame.distance a

instance (frame : WordFrame) : DecidableRel frame.Apart :=
  fun _ _ => inferInstanceAs (Decidable (_ ∨ _))

/-- What lies on the stack has its place in the range of a word, together with the parameters above
it and one slot more. -/
def Fits (params : List Param) (parts : List Part) : Prop :=
  extent parts + slotBytes * (params.length + 1) < 2 ^ 31

instance (params : List Param) : DecidablePred (Fits params) :=
  fun _ => inferInstanceAs (Decidable (_ < _))

theorem locals_word (frame : Frame) : frame.word.locals = frame.locals.map Frame.wordEntry := by
  simp only [locals, Frame.word, Frame.locals, List.flatMap_map, List.map_flatMap]
  rfl

theorem bindings_word (frame : Frame) :
    frame.word.bindings = frame.bindings.map Frame.wordEntry := by
  rw [bindings, locals_word, Frame.bindings, List.map_append]
  rfl

theorem distance_word {entry : String × Local} (hlow : 0 ≤ frame.offset entry.2)
    (hhigh : frame.offset entry.2 < 2 ^ 31) :
    frame.word.distance (Frame.wordEntry entry) = frame.offset entry.2 := by
  rw [distance, Frame.wordEntry, Frame.word, ← Int32.ofInt_sub]
  exact Int32.toInt_ofInt_of_le (by simp only [Frame.offset] at hlow ⊢; omega) hhigh

namespace Tracks

theorem small (h : Tracks Born params parts frame) (hfits : Fits params parts) :
    frame.depth + slotBytes * params.length + slotBytes < 2 ^ 31 := by
  rw [h.depth_eq]
  simp only [Fits, slotBytes] at hfits ⊢
  omega

/-- In the range of a word the parts are laid out one below the other. -/
theorem laid (h : Tracks Born params parts frame) (hsmall : frame.depth + slotBytes < 2 ^ 31) :
    frame.Laid := by
  induction parts generalizing frame with
  | nil =>
    rw [show frame = Frame.ofParams params from h]
    exact Frame.laid_ofParams params
  | cons part outer ih =>
    cases part with
    | scope before count declared =>
      obtain ⟨inner, locals, _, rfl, hplaced, _, hroom, houter⟩ := h
      have hinner : inner.depth + slotBytes < 2 ^ 31 := by
        simp only [opened, slotBytes] at hsmall ⊢
        omega
      have hlaid := ih houter hinner
      exact ⟨⟨hplaced, Int.ofNat_le.2 (hroom hsmall), Int.le_refl _, hlaid.scopes⟩, hlaid.params⟩
    | temp base bytes =>
      obtain ⟨inner, _, hbytes, rfl, houter⟩ := h
      have hinner : inner.depth + slotBytes < 2 ^ 31 := by
        simp only [Frame.pushTemp] at hsmall
        omega
      exact (ih houter hinner).pushTemp hbytes

/-- Pushed bytes lie above the stack pointer. -/
theorem temp_le_depth (h : Tracks Born params parts frame) {base bytes : Int32}
    (hmem : .temp base bytes ∈ parts) :
    ∃ start : Int, base = Int32.ofInt start ∧ 0 ≤ start ∧ 0 ≤ bytes.toInt ∧
      start + bytes.toInt ≤ frame.depth := by
  induction parts generalizing frame with
  | nil => cases hmem
  | cons part outer ih =>
    cases part with
    | scope before count declared =>
      obtain ⟨inner, _, _, rfl, _, _, _, houter⟩ := h
      obtain ⟨start, hbase, hstart, hbytes, hend⟩ := ih houter (by simpa using hmem)
      refine ⟨start, hbase, hstart, hbytes, ?_⟩
      simp only [opened, slotBytes]
      omega
    | temp base' bytes' =>
      obtain ⟨inner, hbase', hbytes', rfl, houter⟩ := h
      rcases List.mem_cons.1 hmem with hsame | hmem
      · cases hsame
        exact ⟨inner.depth, hbase', houter.depth_nonneg, hbytes', Int.le_refl _⟩
      · obtain ⟨start, hbase, hstart, hbytes, hend⟩ := ih houter hmem
        refine ⟨start, hbase, hstart, hbytes, ?_⟩
        simp only [Frame.pushTemp]
        omega

/-- No variable lies in bytes that were pushed. -/
theorem outside_temp (h : Tracks Born params parts frame)
    (hsmall : frame.depth + slotBytes < 2 ^ 31) {base bytes : Int32}
    (hmem : .temp base bytes ∈ parts) {entry : String × Local} (hentry : entry ∈ frame.locals) :
    entry.2.position ≤ base.toInt ∨
      base.toInt + bytes.toInt + slotBytes ≤ entry.2.position := by
  have hbase {frame : Frame} {parts : List Part} (h : Tracks Born params parts frame)
      (hsmall : frame.depth + slotBytes < 2 ^ 31) (hmem : .temp base bytes ∈ parts) :
      base.toInt + bytes.toInt ≤ frame.depth := by
    obtain ⟨start, rfl, hstart, hbytes, hend⟩ := h.temp_le_depth hmem
    rw [Int32.toInt_ofInt_of_le (by omega) (by omega)]
    exact hend
  induction parts generalizing frame with
  | nil => cases hmem
  | cons part outer ih =>
    cases part with
    | scope before count declared =>
      obtain ⟨inner, locals, _, rfl, hplaced, _, _, houter⟩ := h
      have hinner : inner.depth + slotBytes < 2 ^ 31 := by
        simp only [opened, slotBytes] at hsmall ⊢
        omega
      replace hmem : .temp base bytes ∈ outer := by simpa using hmem
      rw [Frame.locals, opened, List.flatMap_cons] at hentry
      rcases List.mem_append.1 hentry with hnew | hold
      -- What the scope declares lies below its base, and the bytes were pushed above it.
      · have htemp := hbase houter hinner hmem
        have hbelow := (hplaced.bounds hnew).1
        exact .inr (by omega)
      · exact ih houter hinner hmem hold
    | temp base' bytes' =>
      obtain ⟨inner, hbase', hbytes', rfl, houter⟩ := h
      have hinner : inner.depth + slotBytes < 2 ^ 31 := by
        simp only [Frame.pushTemp] at hsmall
        omega
      rcases List.mem_cons.1 hmem with hsame | hmem
      · cases hsame
        have hdepth := houter.depth_nonneg
        rw [hbase', Int32.toInt_ofInt_of_le (by omega) (by omega)]
        exact .inl ((houter.laid hinner).bounds hentry).2
      · exact ih houter hinner hmem hentry

/-- Every variable begins at a distance that a word holds. -/
theorem offset_bounds (h : Tracks Born params parts frame) (hfits : Fits params parts)
    {entry : String × Local} (hentry : entry ∈ frame.bindings) :
    0 ≤ frame.offset entry.2 ∧ frame.offset entry.2 < 2 ^ 31 := by
  have hsmall := h.small hfits
  have hdepth := h.depth_nonneg
  rcases List.mem_append.1 hentry with hlocal | hparam
  · have hbounds := (h.laid (by simp only [slotBytes] at hsmall ⊢; omega)).bounds hlocal
    simp only [Frame.offset, slotBytes] at hbounds hsmall ⊢
    omega
  · rw [h.params_eq] at hparam
    obtain ⟨index, param, hplace, rfl⟩ := Frame.mem_ofParams.1 hparam
    have hlt := (List.getElem?_eq_some_iff.1 hplace).1
    simp only [Frame.offset, Frame.paramLocal, slotBytes] at hsmall ⊢
    omega

end Tracks

/-- In the range of a word a variable can be declared while there is room. -/
theorem exists_declare_iff (hlaid : frame.Laid) (hsmall : frame.depth + slotBytes < 2 ^ 31)
    (name : String) (ty : Ty) :
    (∃ given after, (declare name ty).run frame.word = .ok given after) ↔ 0 < frame.room := by
  rw [Frame.declare_word hlaid hsmall]
  cases hdeclare : frame.declare name ty with
  | error e => simpa using (Frame.declare_eq_error.1 hdeclare).1
  | ok out =>
    have hroom : ¬ frame.room ≤ 0 := fun hnone => by
      simp [Frame.declare_eq_error.2 ⟨hnone, rfl⟩] at hdeclare
    simpa using hroom

/-! ## §6 The layout of a run -/

/-- The layout of a frame in use, after any operations in which scopes and pushed bytes nest.

A name that has a declaration in sight is found as far from the saved link register as that
declaration put it, with the declared type; any other parameter is found in its place above the
saved link register. A declaration that fails leaves the frame as it was. Closing a scope gives back
the bytes that opening it took and brings back the frame from before.

If all that lies on the stack has its place in the range of a word, a declaration succeeds exactly if
fewer were made in the innermost scope than the slots it was opened for; all variables lie in slots
of their own, the local ones between the stack pointer and the saved link register and outside of all
pushed bytes, the parameters above the saved link register. -/
theorem layout_of_run {params : List Param} (hdistinct : (params.map (·.name)).Nodup)
    {ops : List Operation} {s : Session} (hrun : (Session.start params).run ops = some s) :
    (∀ name moment, visible? s.parts name = some moment →
      ∃ ty earlier after given offset, ops[moment]? = some (.declare name ty) ∧
        (Session.start params).run (ops.take moment) = some earlier ∧
        (declare name ty).run earlier.frame = .ok given after ∧
        s.frame.lookup? name = some (offset, ty) ∧
        s.frame.depth - offset = earlier.frame.depth - given) ∧
    (∀ index param, params[index]? = some param → visible? s.parts param.name = none →
      s.frame.lookup? param.name = some (s.frame.depth + 4 + 4 * Int32.ofNat index, param.ty)) ∧
    (∀ name ty e after, (declare name ty).run s.frame = .error e after →
      after = s.frame ∧ e = .internal (.noSlotLeft name)) ∧
    (∀ before count declared outer, s.parts = .scope before count declared :: outer →
      s.frame.closeScope = ((before.openScope count).1, before)) ∧
    (Fits params s.parts →
      (∀ name ty, (∃ given after, (declare name ty).run s.frame = .ok given after) ↔
        ∃ count declared, innermost? s.parts = some (count, declared) ∧ declared.length < count) ∧
      s.frame.depth.toInt = extent s.parts ∧
      s.frame.bindings.Pairwise s.frame.Apart ∧
      (∀ entry ∈ s.frame.locals,
        0 ≤ s.frame.distance entry ∧ s.frame.distance entry + slotBytes ≤ s.frame.depth.toInt ∧
        ∀ base bytes : Int32, .temp base bytes ∈ s.parts →
          s.frame.depth.toInt - base.toInt ≤ s.frame.distance entry ∨
            s.frame.distance entry + slotBytes ≤
              s.frame.depth.toInt - (base.toInt + bytes.toInt)) ∧
      ∀ (index : Nat) param, params[index]? = some param →
        ∃ entry ∈ s.frame.root.entries, entry.1 = param.name ∧ entry.2.2 = param.ty ∧
          s.frame.distance entry = s.frame.depth.toInt + 4 + 4 * index) := by
  obtain ⟨frame, hframe, h⟩ := Tracks.run hrun
  rw [hframe]
  refine ⟨?_, ?_, ?_, ?_, ?_⟩
  · intro name moment hvisible
    rcases h.local? name with
      ⟨hnone, _⟩ | ⟨moment', l, hvisible', hlocal, hop, earlier, after, hthen, hdeclare⟩
    · simp [hnone] at hvisible
    · cases hvisible.symm.trans hvisible'
      refine ⟨l.ty, earlier, after, _, Int32.ofInt (frame.offset l), hop, hthen, hdeclare, ?_, ?_⟩
      · rw [Frame.word_lookup?, Frame.lookup?, hlocal]
        rfl
      · rw [Frame.offset, Int32.ofInt_sub, Frame.word]
        grind
  · intro index param hparam hhidden
    rcases h.local? param.name with ⟨_, hlocal⟩ | ⟨_, _, hvisible, _⟩
    · have hoffset : frame.offset (Frame.paramLocal index param) = frame.depth + 4 + 4 * index := by
        simp only [Frame.offset, Frame.paramLocal, slotBytes]
        omega
      have hword : Int32.ofInt (frame.offset (Frame.paramLocal index param)) =
          frame.word.depth + 4 + 4 * Int32.ofNat index := by
        rw [hoffset, Int32.ofInt_add, Int32.ofInt_add, Int32.ofInt_mul, Int32.ofInt_eq_ofNat]
        rfl
      rw [Frame.word_lookup?, Frame.lookup?, hlocal, local?_ofParams hdistinct hparam, ← hword]
      rfl
    · simp [hhidden] at hvisible
  · intro name ty e after hdeclare
    rcases declare_word_cases frame name ty with hrefused | ⟨_, _, _, _, hdone⟩
    · cases hrefused.symm.trans hdeclare
      exact ⟨rfl, rfl⟩
    · cases hdone.symm.trans hdeclare
  · intro before count declared outer hparts
    rw [hparts] at h
    obtain ⟨inner, locals, rfl, rfl, _⟩ := h
    rw [Frame.word_closeScope, closeScope_opened, Frame.word_openScope]
    rfl
  · intro hfits
    have hsmall := h.small hfits
    have hslot : frame.depth + slotBytes < 2 ^ 31 := by
      simp only [slotBytes] at hsmall ⊢
      omega
    have hlaid := h.laid hslot
    have hdepth : frame.word.depth.toInt = frame.depth :=
      Int32.toInt_ofInt_of_le (by have := h.depth_nonneg; omega) (by omega)
    refine ⟨?_, hdepth.trans h.depth_eq, ?_, ?_, ?_⟩
    · intro name ty
      rw [exists_declare_iff hlaid hslot, h.room_eq]
      cases innermost? s.parts with
      | none => simp
      | some inner =>
        obtain ⟨count, declared⟩ := inner
        simp
    · rw [bindings_word, List.pairwise_map]
      refine (hlaid.apart h.params_eq).imp_of_mem ?_
      intro a b ha hb hapart
      have hrangeA := h.offset_bounds hfits ha
      have hrangeB := h.offset_bounds hfits hb
      rwa [Apart, distance_word hrangeA.1 hrangeA.2, distance_word hrangeB.1 hrangeB.2]
    · rw [locals_word, List.forall_mem_map]
      intro entry hentry
      have hrange := h.offset_bounds hfits (List.mem_append_left _ hentry)
      have hbounds := hlaid.bounds hentry
      rw [distance_word hrange.1 hrange.2, hdepth, Frame.offset]
      refine ⟨by omega, by omega, fun base bytes hmem => ?_⟩
      have houtside := h.outside_temp hslot hmem hentry
      omega
    · intro index param hparam
      have hmem : (param.name, Frame.paramLocal index param) ∈ frame.params := by
        rw [h.params_eq]
        exact Frame.mem_ofParams.2 ⟨index, param, hparam, rfl⟩
      have hrange := h.offset_bounds hfits (List.mem_append_right _ hmem)
      refine ⟨_, List.mem_map_of_mem hmem, rfl, rfl, ?_⟩
      rw [distance_word hrange.1 hrange.2, hdepth]
      simp only [Frame.offset, Frame.paramLocal, slotBytes]
      omega

/-- A variable that hides another one of its name, below bytes that were pushed. -/
def hidingOps : List Operation :=
  [.openScope 2, .declare "x" .int, .pushTemp 8, .openScope 1, .declare "x" .bool]

/-- A scope for a count that a word holds as `-1`, between two scopes of one variable each. -/
def collidingOps : List Operation :=
  [.openScope 1, .declare "x" .int, .openScope 0xFFFFFFFF, .openScope 1, .declare "y" .int]

/-- A variable that is hidden keeps a slot of its own. Outside of the range of a word two variables
share one, or a scope without variables is full. -/
theorem layout_of_hiding_and_colliding :
    (∃ s, (Session.start [⟨"x", .int⟩]).run hidingOps = some s ∧
      s.frame.bindings.length = 3 ∧ s.frame.bindings.Pairwise s.frame.Apart) ∧
    (∃ s, (Session.start []).run collidingOps = some s ∧
      s.frame.lookup? "x" = some (0, .int) ∧ s.frame.lookup? "y" = some (0, .int) ∧
      ¬ Fits [] s.parts) ∧
    ∃ s, (Session.start []).run [.openScope 0x20000000] = some s ∧
      (declare "x" .int).run s.frame = .error (.internal (.noSlotLeft "x")) s.frame ∧
      ¬ Fits [] s.parts := by
  refine ⟨?_, ?_, ?_⟩
  · have hhiding : ∃ s, (Session.start [⟨"x", .int⟩]).run hidingOps = some s ∧
        s.frame.bindings.length = 3 ∧ Fits [⟨"x", .int⟩] s.parts := ⟨_, rfl, by decide, by decide⟩
    obtain ⟨s, hrun, hlength, hfits⟩ := hhiding
    exact ⟨s, hrun, hlength, ((layout_of_run (by decide) hrun).2.2.2.2 hfits).2.2.1⟩
  · have hcolliding : ∃ s, (Session.start []).run collidingOps = some s ∧
        s.frame.lookup? "x" = some (0, .int) ∧ s.frame.lookup? "y" = some (0, .int) ∧
        ¬ s.frame.bindings.Pairwise s.frame.Apart := ⟨_, rfl, by decide, by decide, by decide⟩
    obtain ⟨s, hrun, hx, hy, hshared⟩ := hcolliding
    refine ⟨s, hrun, hx, hy, fun hfits => hshared ?_⟩
    exact ((layout_of_run (by decide) hrun).2.2.2.2 hfits).2.2.1
  · have hfull : ∃ s, (Session.start []).run [.openScope 0x20000000] = some s ∧
        (declare "x" .int).run s.frame = .error (.internal (.noSlotLeft "x")) s.frame ∧
        innermost? s.parts = some (0x20000000, []) := ⟨_, rfl, by rfl, rfl⟩
    obtain ⟨s, hrun, hrefused, hinner⟩ := hfull
    refine ⟨s, hrun, hrefused, fun hfits => ?_⟩
    have hroom := ((layout_of_run (by decide) hrun).2.2.2.2 hfits).1 "x" .int
    obtain ⟨given, after, hdone⟩ := hroom.2 ⟨_, _, hinner, by decide⟩
    cases hrefused.symm.trans hdone

end WordFrame

end ArmCompiler
