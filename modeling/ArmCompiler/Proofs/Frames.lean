import ArmCompiler.Lowering.Expr

/-!
# The Layout of Stack Frames

How frames change while a body is lowered, and where their variables lie.

A statement changes the frame only by declaring variables in the innermost scope; `Declared`
records how many. Whatever was declared, closing the scope that was opened before brings back
the frame from before. In a frame that is *laid out* the slots of different variables do not
overlap, locals lie between the stack pointer and the saved link register, and parameters lie
above it.

## Contents
- §1: declaring variables
- §2: frames that differ by declarations
- §3: laid-out frames
-/

namespace ArmCompiler

namespace Frame

/-! ## §1 Declaring variables -/

/-- The place that the next variable declared in a scope gets. -/
def Scope.next (scope : Scope) (ty : Ty) : Local :=
  { position := scope.base + (slotBytes * (scope.locals.length + 1) : Nat), ty }

/-- The scope with one more variable, in its next place. -/
def Scope.add (scope : Scope) (name : String) (ty : Ty) : Scope :=
  { scope with locals := (name, scope.next ty) :: scope.locals }

/-- How many more variables the innermost scope has room for. -/
def room (frame : Frame) : Int :=
  match frame.scopes with
  | [] => 0
  | scope :: _ => scope.slots - scope.locals.length

/-- A variable gets the next place of the innermost scope, which must have one left. -/
theorem declare_eq_ok {frame frame' : Frame} {name : String} {ty : Ty} {offset : Int} :
    frame.declare name ty = .ok (offset, frame') ↔
      ∃ scope outer, frame.scopes = scope :: outer ∧ scope.locals.length < scope.slots ∧
        offset = frame.offset (scope.next ty) ∧
        frame' = { frame with scopes := scope.add name ty :: outer } := by
  unfold declare
  cases h : frame.scopes with
  | nil => simp
  | cons scope outer =>
    by_cases hroom : (scope.locals.length : Int) < scope.slots
    · simp only [hroom, if_true, Except.ok.injEq, Prod.mk.injEq]
      constructor
      · rintro ⟨rfl, rfl⟩
        exact ⟨scope, outer, rfl, hroom, rfl, rfl⟩
      · rintro ⟨_, _, hscopes, _, rfl, rfl⟩
        cases hscopes
        exact ⟨rfl, rfl⟩
    · simp only [hroom, if_false, reduceCtorEq, false_iff]
      rintro ⟨_, _, hscopes, hroom', _⟩
      cases hscopes
      exact hroom hroom'

theorem declare_eq_error {frame : Frame} {name : String} {ty : Ty} {e : CompileError} :
    frame.declare name ty = .error e ↔
      frame.room ≤ 0 ∧ e = .internal (.noSlotLeft name) := by
  unfold declare room
  cases frame.scopes with
  | nil => simp [eq_comm]
  | cons scope outer =>
    by_cases hroom : (scope.locals.length : Int) < scope.slots
    · simp only [hroom, if_true, reduceCtorEq, false_iff, not_and]
      omega
    · simp only [hroom, if_false, Except.error.injEq]
      constructor
      · rintro rfl
        exact ⟨by omega, rfl⟩
      · rintro ⟨_, rfl⟩
        rfl

/-- A declared variable is found in its place, and no other variable changes. -/
theorem local?_of_declare {frame frame' : Frame} {name : String} {ty : Ty} {offset : Int}
    (h : frame.declare name ty = .ok (offset, frame')) (other : String) :
    ∃ l : Local, l.ty = ty ∧
      frame'.local? other = if other = name then some l else frame.local? other := by
  obtain ⟨scope, outer, hscopes, _, _, rfl⟩ := declare_eq_ok.1 h
  refine ⟨scope.next ty, rfl, ?_⟩
  by_cases hsame : other = name
  · simp [local?, Scope.add, hsame]
  · simp [local?, Scope.add, hscopes, hsame, List.findSome?_cons, List.lookup_cons,
      beq_false_of_ne hsame]

/-- Opening a scope hides no variable. -/
@[simp] theorem local?_openScope (frame : Frame) (slots : Int) (name : String) :
    (frame.openScope slots).local? name = frame.local? name := rfl

/-- Pushing bytes moves no variable. -/
@[simp] theorem local?_pushTemp (frame : Frame) (bytes : Int) (name : String) :
    (frame.pushTemp bytes).local? name = frame.local? name := rfl

@[simp] theorem room_openScope (frame : Frame) (slots : Int) :
    (frame.openScope slots).room = slots := by
  simp [room, openScope]

theorem pushTemp_pushTemp (frame : Frame) (a b : Int) :
    (frame.pushTemp a).pushTemp b = frame.pushTemp (a + b) := by
  simp [pushTemp, Int.add_assoc]

@[simp] theorem pushTemp_zero (frame : Frame) : frame.pushTemp 0 = frame := by
  simp [pushTemp]

/-! ## §2 Frames that differ by declarations -/

/-- `Declared frame count frame'`: the frame becomes `frame'` by `count` declarations. -/
inductive Declared : Frame → Nat → Frame → Prop where
  | none (frame : Frame) : Declared frame 0 frame
  | next {frame mid frame' : Frame} {count : Nat} {name : String} {ty : Ty} {offset : Int} :
      Declared frame count mid → mid.declare name ty = .ok (offset, frame') →
      Declared frame (count + 1) frame'

theorem Declared.one {frame frame' : Frame} {name : String} {ty : Ty} {offset : Int}
    (h : frame.declare name ty = .ok (offset, frame')) : Declared frame 1 frame' :=
  .next (.none frame) h

theorem Declared.trans {frame mid frame' : Frame} {a b : Nat} (h : Declared frame a mid)
    (h' : Declared mid b frame') : Declared frame (a + b) frame' := by
  induction h' with
  | none => exact h
  | next _ hdeclare ih => exact .next ih hdeclare

theorem Declared.eq_of_zero {frame frame' : Frame} (h : Declared frame 0 frame') :
    frame' = frame := by
  cases h
  rfl

/-- Declarations leave the depth, the parameters and the scopes around the innermost one
alone, and use up as much room as there are declarations. -/
theorem Declared.keeps {frame frame' : Frame} {count : Nat} (h : Declared frame count frame') :
    frame'.depth = frame.depth ∧ frame'.params = frame.params ∧
      frame'.scopes.tail = frame.scopes.tail ∧ frame'.scopeBytes = frame.scopeBytes ∧
      (frame'.room = frame.room - count) := by
  induction h with
  | none => simp
  | next _ hdeclare ih =>
    -- A declaration adds an entry to the innermost scope and touches nothing else.
    obtain ⟨scope, outer, hscopes, _, _, rfl⟩ := declare_eq_ok.1 hdeclare
    obtain ⟨hdepth, hparams, htail, hbytes, hroom⟩ := ih
    rw [hscopes] at htail
    simp only [scopeBytes, room, hscopes] at hbytes hroom
    refine ⟨hdepth, hparams, htail, hbytes, ?_⟩
    simp only [room, Scope.add, List.length_cons]
    omega

/-- Closing a scope drops what was declared in it. -/
theorem Declared.closeScope {frame frame' : Frame} {slots : Int} {count : Nat}
    (h : Declared (frame.openScope slots) count frame') : frame'.closeScope = frame := by
  obtain ⟨hdepth, hparams, htail, hbytes, _⟩ := h.keeps
  -- Closing only looks at what declarations keep, so it may as well close the scope just opened.
  rw [← closeScope_openScope frame slots]
  simp only [Frame.closeScope, hdepth, hparams, htail, hbytes]

theorem Declared.scopeBytes {frame frame' : Frame} {slots : Int} {count : Nat}
    (h : Declared (frame.openScope slots) count frame') :
    frame'.scopeBytes = slotBytes * slots := by
  rw [h.keeps.2.2.2.1]
  rfl

/-! ## §3 Laid-out frames -/

/-- The variables of a scope lie below its base one after the other, the latest lowest. -/
def Placed (base : Int) : List (String × Local) → Prop
  | [] => True
  | (_, l) :: older => l.position = base + (slotBytes * (older.length + 1) : Nat) ∧
      Placed base older

/-- Each scope holds its variables in its own slots, between the scopes around it and a
limit. -/
def Stacked : List Scope → Int → Prop
  | [], limit => 0 ≤ limit
  | scope :: outer, limit =>
    Placed scope.base scope.locals ∧ scope.locals.length ≤ scope.slots ∧
      scope.base + slotBytes * scope.slots ≤ limit ∧ Stacked outer scope.base

/-- Scopes lie below each other above the stack pointer, and parameters above the saved link
register. -/
structure Laid (frame : Frame) : Prop where
  scopes : Stacked frame.scopes frame.depth
  params : ∀ entry ∈ frame.params, entry.2.position ≤ -(slotBytes : Int)

theorem Stacked.mono {scopes : List Scope} {limit limit' : Int} (h : Stacked scopes limit)
    (hle : limit ≤ limit') : Stacked scopes limit' := by
  cases scopes with
  | nil => exact Int.le_trans h hle
  | cons scope outer => exact ⟨h.1, h.2.1, Int.le_trans h.2.2.1 hle, h.2.2.2⟩

theorem Stacked.limit_nonneg {scopes : List Scope} {limit : Int} (h : Stacked scopes limit) :
    0 ≤ limit := by
  induction scopes generalizing limit with
  | nil => exact h
  | cons scope outer ih =>
    obtain ⟨_, hroom, hlimit, houter⟩ := h
    have hbase := ih houter
    simp only [slotBytes] at hlimit
    omega

theorem Laid.depth_nonneg {frame : Frame} (h : frame.Laid) : 0 ≤ frame.depth :=
  h.scopes.limit_nonneg

theorem Laid.room_nonneg {frame : Frame} (h : frame.Laid) : 0 ≤ frame.room := by
  have hstacked := h.scopes
  unfold room
  cases hscopes : frame.scopes with
  | nil => simp
  | cons scope outer =>
    rw [hscopes] at hstacked
    have hfits := hstacked.2.1
    simp only
    omega

/-- At the entry of a function only the parameters have places. -/
theorem laid_ofParams (params : List Param) : (ofParams params).Laid where
  scopes := Int.le_refl 0
  params := by
    intro entry hentry
    simp only [ofParams, List.mem_reverse, List.mem_mapIdx] at hentry
    obtain ⟨i, _, rfl⟩ := hentry
    simp only [paramLocal, slotBytes]
    omega

theorem Laid.openScope {frame : Frame} (h : frame.Laid) (slots : Nat) :
    (frame.openScope slots).Laid where
  scopes := ⟨trivial, by simp, Int.le_refl _, h.scopes⟩
  params := h.params

theorem Laid.pushTemp {frame : Frame} (h : frame.Laid) {bytes : Int} (hbytes : 0 ≤ bytes) :
    (frame.pushTemp bytes).Laid where
  scopes := h.scopes.mono (by simp only [Frame.pushTemp]; omega)
  params := h.params

theorem Laid.declare {frame frame' : Frame} (h : frame.Laid) {name : String} {ty : Ty}
    {offset : Int} (hdeclare : frame.declare name ty = .ok (offset, frame')) : frame'.Laid := by
  obtain ⟨scope, outer, hscopes, hroom, _, rfl⟩ := declare_eq_ok.1 hdeclare
  have hstacked := h.scopes
  rw [hscopes] at hstacked
  obtain ⟨hplaced, _, hlimit, houter⟩ := hstacked
  -- The next place of the scope is by definition the one that `Placed` asks for.
  refine ⟨⟨⟨rfl, hplaced⟩, ?_, hlimit, houter⟩, h.params⟩
  simp only [Scope.add, List.length_cons]
  omega

theorem Laid.declared {frame frame' : Frame} {count : Nat} (h : frame.Laid)
    (hdeclared : Declared frame count frame') : frame'.Laid := by
  induction hdeclared with
  | none => exact h
  | next _ hdeclare ih => exact ih.declare hdeclare

/-- The variables of a scope lie in the slots that its declarations took. -/
theorem Placed.bounds {base : Int} {locals : List (String × Local)} (h : Placed base locals)
    {entry : String × Local} (hentry : entry ∈ locals) :
    base + slotBytes ≤ entry.2.position ∧
      entry.2.position ≤ base + slotBytes * locals.length := by
  induction locals with
  | nil => cases hentry
  | cons first older ih =>
    obtain ⟨hfirst, holder⟩ := h
    simp only [slotBytes, List.length_cons] at hfirst ih ⊢
    rcases List.mem_cons.1 hentry with rfl | hmem
    · omega
    · have := ih holder hmem
      omega

/-- Every local variable lies between the stack pointer and the saved link register. -/
theorem Stacked.bounds {scopes : List Scope} {limit : Int} (h : Stacked scopes limit)
    {scope : Scope} (hscope : scope ∈ scopes) {entry : String × Local}
    (hentry : entry ∈ scope.locals) :
    (slotBytes : Int) ≤ entry.2.position ∧ entry.2.position ≤ limit := by
  induction scopes generalizing limit with
  | nil => cases hscope
  | cons inner outer ih =>
    obtain ⟨hplaced, hroom, hlimit, houter⟩ := h
    -- The slots of an outer scope end where the next inner one begins.
    rcases List.mem_cons.1 hscope with rfl | hmem
    · have hbounds := hplaced.bounds hentry
      have hbase := houter.limit_nonneg
      simp only [slotBytes] at hbounds hlimit ⊢
      omega
    · have hbounds := ih houter hmem
      simp only [slotBytes] at hbounds hlimit ⊢
      omega

theorem mem_of_lookup {α : Type} {name : String} {entries : List (String × α)} {a : α}
    (h : entries.lookup name = some a) : (name, a) ∈ entries := by
  obtain ⟨before, after, rfl, _⟩ := List.lookup_eq_some_iff.1 h
  simp

/-- The entries of a frame's parameters. -/
theorem mem_ofParams {params : List Param} {entry : String × Local} :
    entry ∈ (ofParams params).params ↔
      ∃ index param, params[index]? = some param ∧
        entry = (param.name, paramLocal index param) := by
  rw [ofParams, List.mem_reverse, List.mem_iff_getElem?]
  simp only [List.getElem?_mapIdx, Option.map_eq_some_iff]
  constructor
  · rintro ⟨index, param, hparam, rfl⟩
    exact ⟨index, param, hparam, rfl⟩
  · rintro ⟨index, param, hparam, rfl⟩
    exact ⟨index, param, hparam, rfl⟩

/-- A variable is a local in the slots of the frame or a parameter above the saved link
register. -/
theorem Laid.local? {frame : Frame} (h : frame.Laid) {name : String} {l : Local}
    (hl : frame.local? name = some l) :
    ((slotBytes : Int) ≤ l.position ∧ l.position ≤ frame.depth) ∨
      l.position ≤ -(slotBytes : Int) := by
  unfold Frame.local? at hl
  -- Parameters are looked up last, when no scope declares the name.
  rcases Option.or_eq_some_iff.1 hl with hscopes | ⟨_, hparams⟩
  · obtain ⟨scope, hscope, hlookup⟩ := List.exists_of_findSome?_eq_some hscopes
    exact .inl (h.scopes.bounds hscope (mem_of_lookup hlookup))
  · exact .inr (h.params _ (mem_of_lookup hparams))

/-- A variable that is found is found at the distance of its place. -/
theorem find_eq_ok {frame : Frame} {name : String} {offset : Int} {ty : Ty} :
    frame.find name = .ok (offset, ty) ↔
      ∃ l, frame.local? name = some l ∧ offset = frame.offset l ∧ ty = l.ty := by
  unfold find lookup?
  cases frame.local? name with
  | none => simp
  | some l => simp [eq_comm]

/-- A variable is found where it was declared. -/
theorem find_of_declare {frame frame' : Frame} {name : String} {ty : Ty} {offset : Int}
    (h : frame.declare name ty = .ok (offset, frame')) :
    frame'.find name = .ok (offset, ty) := by
  obtain ⟨scope, outer, _, _, rfl, rfl⟩ := declare_eq_ok.1 h
  exact find_eq_ok.2 ⟨scope.next ty, by simp [local?, Scope.add], rfl, rfl⟩

theorem find_eq_error {frame : Frame} {name : String} {e : CompileError} :
    frame.find name = .error e ↔
      frame.local? name = none ∧ e = .internal (.unknownVariable name) := by
  unfold find lookup?
  cases frame.local? name with
  | none => simp [eq_comm]
  | some l => simp

end Frame

end ArmCompiler
