import ArmCompiler.Proofs.CheckedPrograms
import ArmCompiler.Proofs.Visits

/-!
# Agreement of Types

Checking and lowering find the types of expressions and targets on their own: checking under the
symbol table that it keeps, lowering in the frame that it keeps. In a program that was checked
without a diagnostic the two never differ. Whenever lowering evaluates or types an occurrence, the
type in the frame of that moment is the one that checking found for the same occurrence; and
lowering that succeeds has come past every occurrence. Main statement: `Program.types_agree`.

## Contents
- §1: the types that checking finds
- §2: visits that agree
- §3: expressions
- §4: right sides and targets
- §5: statements
- §6: programs
-/

namespace ArmCompiler

open Instruction Lower Report

/-! ## §1 The types that checking finds -/

/-- The occurrences in a syntax tree and their types, by the way that leads to them. -/
abbrev Decoration := Path → Option (Occurrence × Ty)

/-- A node that may be an occurrence itself, with its parts in order. -/
def Decoration.node (own : Option (Occurrence × Ty)) (parts : List Decoration) : Decoration
  | [] => own
  | i :: path =>
    match parts[i]? with
    | some part => part path
    | none => none

namespace Decoration

variable {a b : Decoration} {path : Path} {found : Occurrence × Ty}

@[simp] theorem node_empty (path : Path) : node none [] path = none := by
  cases path <;> rfl

/-- What is found under a node with one part is found in that part. -/
theorem of_one (h : node none [a] path = some found) :
    ∃ rest, path = 0 :: rest ∧ a rest = some found := by
  rcases path with _ | ⟨_ | n, path⟩
  · simp [node] at h
  · exact ⟨path, rfl, h⟩
  · simp [node] at h

/-- What is found under a node with two parts is found in one of them. -/
theorem of_two (h : node none [a, b] path = some found) :
    (∃ rest, path = 0 :: rest ∧ a rest = some found) ∨
      ∃ rest, path = 1 :: rest ∧ b rest = some found := by
  rcases path with _ | ⟨_ | _ | n, path⟩
  · simp [node] at h
  · exact .inl ⟨path, rfl, h⟩
  · exact .inr ⟨path, rfl, h⟩
  · simp [node] at h

end Decoration

mutual

/-- The types that checking finds in an expression. -/
def Expr.typeAt (table : SymbolTable) : Expr → Decoration
  | e@(.int ..) | e@(.bool ..) | e@(.char ..) | e@(.str ..) | e@(.null ..) | e@(.ident ..) =>
    .node (some (.expr e, (e.check table).value)) []
  | e@(.elem _ _ indices) =>
    .node (some (.expr e, (e.check table).value)) [typeAtAll table indices]
  | e@(.unary _ _ operand) =>
    .node (some (.expr e, (e.check table).value)) [operand.typeAt table]
  | e@(.binary _ _ lhs rhs) =>
    .node (some (.expr e, (e.check table).value)) [lhs.typeAt table, rhs.typeAt table]

/-- The types that checking finds in a list of expressions. -/
def typeAtAll (table : SymbolTable) : List Expr → Decoration
  | [] => .node none []
  | e :: rest => .node none [e.typeAt table, typeAtAll table rest]

end

/-- The types that checking finds in a target. -/
def Target.typeAt (table : SymbolTable) (span : Span) (t : Target) : Decoration :=
  .node (some (.target t, (t.check table span).value)) <|
    match t with
    | .ident _ => []
    | .elem _ indices => [typeAtAll table indices]
    | .side _ pair => [pair.typeAt table]

/-- The types that checking finds in a right side. -/
def Rhs.typeAt (table : SymbolTable) : Rhs → Decoration
  | .expr e => e.typeAt table
  | .array elems => typeAtAll table elems
  | .newPair fst snd => .node none [fst.typeAt table, snd.typeAt table]
  | .side _ pair => .node none [pair.typeAt table]
  | .call _ args => typeAtAll table args

/-- The types that checking finds in a statement. Each part is checked with the table that the
parts before it have left. -/
def Stmt.typeAt : Stmt → SymbolTable → Decoration
  | .skip _, _ | .increment .., _ => .node none []
  | .declare _ _ _ rhs, table => .node none [rhs.typeAt table]
  | .assign span target rhs, table => .node none [target.typeAt table span, rhs.typeAt table]
  | .read span target, table => .node none [target.typeAt table span]
  | .free _ e, table | .ret _ e, table | .exit _ e, table | .print _ e, table
  | .println _ e, table => .node none [e.typeAt table]
  | .ifThen _ cond body, table | .whileDo _ cond body, table =>
    .node none [cond.typeAt table, body.typeAt table.openScope]
  | .ifElse _ cond thenArm elseArm, table =>
    .node none [cond.typeAt table, thenArm.typeAt table.openScope,
      elseArm.typeAt table.openScope]
  | .doWhile _ body cond, table =>
    .node none [body.typeAt table.openScope, cond.typeAt table]
  | .forLoop _ init cond step body, table =>
    let first := (init.check table.openScope).value.2
    let last := (step.check first).value.2
    -- The body is checked last, with what both clauses have left.
    .node none [init.typeAt table.openScope, cond.typeAt first, step.typeAt first,
      body.typeAt last.openScope]
  | .block _ body, table => .node none [body.typeAt table.openScope]
  | .seq _ first second, table =>
    .node none [first.typeAt table, second.typeAt (first.check table).value.2]

/-- The types that checking finds in functions, each of which is checked with the table that the
ones before it have left. -/
def functionsTypeAt : List Function → SymbolTable → Decoration
  | [], _ => .node none []
  | f :: rest, table =>
    .node none [f.body.typeAt (table.openScope.enterFunction f.name).2,
      functionsTypeAt rest (f.check table).value]

/-- The types that checking finds in a program. -/
def Program.typeAt (p : Program) : Decoration :=
  let declared := (p.functions.foldlM Function.declare {}).value
  .node none [functionsTypeAt p.functions declared,
    p.body.typeAt (p.functions.foldlM Function.check declared).value]

/-! ## §2 Visits that agree -/

/-- A visit of an occurrence whose type in the frame is the one that checking found. -/
def Visit.Agrees (d : Decoration) (v : Visit) : Prop :=
  ∃ ty, d v.path = some (v.occurrence, ty) ∧ v.occurrence.typeIn v.resources.frame = .ok ty

namespace Recorded

variable {α β : Type} {d : Decoration} {path : Path}

/-- All visits agree. -/
def Sound (d : Decoration) (x : Recorded α) : Prop := ∀ v ∈ x.visits, v.Agrees d

/-- An occurrence is visited. -/
def Reaches (path : Path) (x : Recorded α) : Prop := ∃ v ∈ x.visits, v.path = path

theorem visits_bind (x : Recorded α) (f : α → Recorded β) :
    (x >>= f).visits = x.visits ++
      match x.result with
      | .ok a => (f a).visits
      | .error _ => [] := by
  simp only [bind]
  cases x.result <;> simp

theorem Sound.bind {x : Recorded α} {f : α → Recorded β} (hx : x.Sound d)
    (hf : ∀ a, x.result = .ok a → (f a).Sound d) : (x >>= f).Sound d := by
  intro v hv
  rw [visits_bind, List.mem_append] at hv
  rcases hv with hv | hv
  · exact hx v hv
  · cases hresult : x.result with
    | error e => simp [hresult] at hv
    | ok a => exact hf a hresult v (by simpa [hresult] using hv)

theorem sound_pure (a : α) : (pure a : Recorded α).Sound d := fun _ hv => nomatch hv

theorem sound_liftM (x : Except CompileError α) : (liftM x : Recorded α).Sound d :=
  fun _ hv => nomatch hv

/-- What agrees in a part agrees in the whole. -/
theorem Sound.under {x : Recorded α} {i : Nat} {own : Option (Occurrence × Ty)}
    {parts : List Decoration} (h : x.Sound d) (hpart : parts[i]? = some d) :
    (x.under i).Sound (.node own parts) := by
  intro v hv
  obtain ⟨inner, hinner, rfl⟩ := List.mem_map.1 hv
  obtain ⟨ty, htype, hframe⟩ := h inner hinner
  refine ⟨ty, ?_, hframe⟩
  simpa [Visit.under, Decoration.node, hpart] using htype

/-- Of two computations that succeed, the first one comes past an occurrence. -/
theorem Reaches.first {x : Recorded α} {f : α → Recorded β} {b : β}
    (hresult : (x >>= f).result = .ok b) (h : ∀ a, x.result = .ok a → x.Reaches path) :
    (x >>= f).Reaches path := by
  cases hx : x.result with
  | error e => simp [hx, bind] at hresult
  | ok a =>
    obtain ⟨v, hv, hpath⟩ := h a hx
    refine ⟨v, ?_, hpath⟩
    rw [visits_bind]
    exact List.mem_append_left _ hv

/-- Of two computations that succeed, the second one comes past an occurrence. -/
theorem Reaches.second {x : Recorded α} {f : α → Recorded β} {b : β}
    (hresult : (x >>= f).result = .ok b)
    (h : ∀ a, x.result = .ok a → (f a).result = .ok b → (f a).Reaches path) :
    (x >>= f).Reaches path := by
  cases hx : x.result with
  | error e => simp [hx, bind] at hresult
  | ok a =>
    rw [result_bind, hx] at hresult
    obtain ⟨v, hv, hpath⟩ := h a hx hresult
    refine ⟨v, ?_, hpath⟩
    rw [visits_bind, hx]
    exact List.mem_append_right _ hv

theorem Reaches.under {x : Recorded α} (h : x.Reaches path) (i : Nat) :
    (x.under i).Reaches (i :: path) := by
  obtain ⟨v, hv, rfl⟩ := h
  exact ⟨v.under i, List.mem_map_of_mem hv, rfl⟩

end Recorded

namespace Watch

variable {α β : Type} {d : Decoration} {path : Path} {resources : Resources}

theorem sound_bind {w : Watch α} {next : α → Watch β} (hw : (w.run resources).Sound d)
    (hnext : ∀ first, w.erase.run resources = .ok first →
      ((next first.value).run first.resources).Sound d) :
    ((w >>= next).run resources).Sound d :=
  Recorded.Sound.bind hw fun first hfirst =>
    (hnext first hfirst).bind fun _ _ => Recorded.sound_pure _

theorem sound_under {w : Watch α} {i : Nat} {own : Option (Occurrence × Ty)}
    {parts : List Decoration} (h : (w.run resources).Sound d) (hpart : parts[i]? = some d) :
    ((w.under i).run resources).Sound (.node own parts) :=
  Recorded.Sound.under h hpart

theorem sound_visit {occurrence : Occurrence} {ty : Ty} (hd : d [] = some (occurrence, ty))
    (hframe : occurrence.typeIn resources.frame = .ok ty) :
    ((visit occurrence).run resources).Sound d := by
  intro v hv
  obtain rfl : v = { path := [], occurrence, resources } := by simpa [visit, run] using hv
  exact ⟨ty, hd, hframe⟩

theorem sound_visit_bind {occurrence : Occurrence} {ty : Ty} {next : Unit → Watch α}
    (hd : d [] = some (occurrence, ty)) (hframe : occurrence.typeIn resources.frame = .ok ty)
    (hnext : ((next ()).run resources).Sound d) :
    ((visit occurrence >>= next).run resources).Sound d := by
  refine sound_bind (sound_visit hd hframe) fun first hfirst => ?_
  obtain rfl : first = { value := (), resources } := by
    simpa [erase_visit, eq_comm] using hfirst
  exact hnext

/-- A step that never visits anything. -/
def Silent (w : Watch α) : Prop := ∀ resources, (w.run resources).visits = []

theorem silent_pure (a : α) : (pure a : Watch α).Silent := fun _ => rfl

theorem silent_liftM (step : Lower α) : (liftM step : Watch α).Silent := fun _ => rfl

theorem Silent.sound {w : Watch α} (h : w.Silent) : (w.run resources).Sound d := by
  intro v hv
  simp [h resources] at hv

theorem sound_liftM_bind {step : Lower α} {next : α → Watch β}
    (hnext : ∀ first, step.run resources = .ok first →
      ((next first.value).run first.resources).Sound d) :
    (((liftM step : Watch α) >>= next).run resources).Sound d :=
  sound_bind (silent_liftM step).sound hnext

theorem reaches_first {w : Watch α} {next : α → Watch β} {out : Lowered β}
    (hrun : (w >>= next).erase.run resources = .ok out)
    (h : ∀ first, w.erase.run resources = .ok first → (w.run resources).Reaches path) :
    ((w >>= next).run resources).Reaches path :=
  Recorded.Reaches.first hrun h

theorem reaches_second {w : Watch α} {next : α → Watch β} {out : Lowered β}
    (hrun : (w >>= next).erase.run resources = .ok out)
    (h : ∀ (first : Lowered α) (second : Lowered β),
      (next first.value).erase.run first.resources = .ok second →
      ((next first.value).run first.resources).Reaches path) :
    ((w >>= next).run resources).Reaches path :=
  Recorded.Reaches.second hrun fun first _ hrest =>
    Recorded.Reaches.first hrest fun second hsecond => h first second hsecond

theorem reaches_under {w : Watch α} (h : (w.run resources).Reaches path) (i : Nat) :
    ((w.under i).run resources).Reaches (i :: path) :=
  Recorded.Reaches.under h i

theorem reaches_visit (occurrence : Occurrence) : ((visit occurrence).run resources).Reaches [] :=
  ⟨_, List.mem_singleton_self _, rfl⟩

/-! ## §3 Expressions -/

theorem sound_inOrder {left : Bool} {a b : Watch Register}
    (ha : ∀ start : Resources, start.frame = resources.frame → (a.run start).Sound d)
    (hb : ∀ start : Resources, start.frame = resources.frame → (b.run start).Sound d)
    (ha' : ∀ out, a.erase.run resources = .ok out → out.resources.frame = resources.frame)
    (hb' : ∀ out, b.erase.run resources = .ok out → out.resources.frame = resources.frame) :
    ((inOrder left a b).run resources).Sound d := by
  cases left with
  | true =>
    refine sound_bind (ha _ rfl) fun first hfirst => ?_
    exact sound_bind (hb _ (ha' first hfirst)) fun _ _ => (silent_pure _).sound
  | false =>
    refine sound_bind (hb _ rfl) fun first hfirst => ?_
    exact sound_bind (ha _ (hb' first hfirst)) fun _ _ => (silent_pure _).sound

/-- Two values that are computed are both computed, in whichever order. -/
theorem reaches_inOrder {left : Bool} {a b : Watch Register} {out : Lowered (Register × Register)}
    (hrun : (inOrder left a b).erase.run resources = .ok out)
    (h : (∀ start value, a.erase.run start = .ok value → (a.run start).Reaches path) ∨
      ∀ start value, b.erase.run start = .ok value → (b.run start).Reaches path) :
    ((inOrder left a b).run resources).Reaches path := by
  cases left with
  | true =>
    rcases h with ha | hb
    · exact reaches_first hrun fun value hvalue => ha _ value hvalue
    · refine reaches_second hrun fun first second hsecond => ?_
      exact reaches_first hsecond fun value hvalue => hb _ value hvalue
  | false =>
    rcases h with ha | hb
    · refine reaches_second hrun fun first second hsecond => ?_
      exact reaches_first hsecond fun value hvalue => ha _ value hvalue
    · exact reaches_first hrun fun value hvalue => hb _ value hvalue

end Watch

open Watch

/-- Lowering an expression leaves the frame alone. -/
theorem Expr.frame_lower {e : Expr} {resources : Resources} {out : Lowered Register}
    (h : e.lower.run resources = .ok out) : out.resources.frame = resources.frame := by
  rw [(e.lower_fetches h (.any _)).holds]
  rfl

mutual

/-- In an expression that was checked without a diagnostic all visits agree. -/
theorem Expr.watch_sound {table : SymbolTable} : (e : Expr) → {resources : Resources} →
    Matches table resources.frame → (e.check table).diagnostics = [] →
    (e.watch.run resources).Sound (e.typeAt table)
  | e@(.int ..), resources, hmatch, h | e@(.bool ..), resources, hmatch, h
  | e@(.char ..), resources, hmatch, h | e@(.str ..), resources, hmatch, h
  | e@(.null ..), resources, hmatch, h | e@(.ident ..), resources, hmatch, h => by
    simp only [Expr.watch, Expr.typeAt]
    exact sound_visit_bind rfl (Expr.check_clean hmatch _ h).type (silent_liftM _).sound
  | .elem span name indices, resources, hmatch, h => by
    have htype := (Expr.check_clean hmatch _ h).type
    simp only [Expr.check, diagnostics_bind, List.append_eq_nil_iff] at h
    simp only [Expr.watch, Expr.typeAt]
    refine sound_visit_bind rfl htype (sound_liftM_bind fun array harray => ?_)
    -- The array takes a register and leaves the frame to the indices as it was.
    have hholds : array.resources = resources.hold array.value.1 :=
      (loadArray_fetches (.any _) harray).holds
    rw [hholds]
    exact sound_bind (sound_under (watchIndices_sound indices hmatch h.2.1) rfl)
      fun _ _ => (silent_liftM _).sound
  | .unary span op operand, resources, hmatch, h => by
    have htype := (Expr.check_clean hmatch _ h).type
    simp only [Expr.check, diagnostics_bind, List.append_eq_nil_iff] at h
    simp only [Expr.watch, Expr.typeAt]
    refine sound_visit_bind rfl htype ?_
    exact sound_bind (sound_under (operand.watch_sound hmatch h.1) rfl)
      fun _ _ => (silent_liftM _).sound
  | .binary span op lhs rhs, resources, hmatch, h => by
    have htype := (Expr.check_clean hmatch _ h).type
    simp only [Expr.check, diagnostics_bind, List.append_eq_nil_iff] at h
    simp only [Expr.watch, Expr.typeAt]
    refine sound_visit_bind rfl htype (sound_bind (sound_inOrder ?_ ?_ ?_ ?_)
      fun _ _ => (silent_liftM _).sound)
    · exact fun start hframe => sound_under (lhs.watch_sound (hframe ▸ hmatch) h.1) rfl
    · exact fun start hframe => sound_under (rhs.watch_sound (hframe ▸ hmatch) h.2.1) rfl
    · exact fun out hrun => Expr.frame_lower (by simpa using hrun)
    · exact fun out hrun => Expr.frame_lower (by simpa using hrun)

theorem watchIndices_sound {table : SymbolTable} : (indices : List Expr) → {array : Register} →
    {ty : Ty} → {resources : Resources} → Matches table resources.frame →
    (checkIndices table indices).diagnostics = [] →
    ((watchIndices array ty indices).run resources).Sound (typeAtAll table indices)
  | [], array, ty, resources, _, _ => by
    simp only [watchIndices]
    exact (silent_pure ty).sound
  | i :: rest, array, ty, resources, hmatch, h => by
    simp only [checkIndices, diagnostics_bind, List.append_eq_nil_iff] at h
    simp only [watchIndices, typeAtAll]
    refine sound_bind (sound_under (i.watch_sound hmatch h.1) rfl) fun first hfirst => ?_
    rw [erase_under, Expr.erase_watch] at hfirst
    refine sound_liftM_bind fun indexed hindexed => sound_liftM_bind fun released hreleased => ?_
    -- An index gives its register back, so the next one starts from the same resources.
    have hback : released.resources = resources := by
      rw [← (i.lower_fetches hfirst (.any _)).release_index hindexed]
      simpa [eq_comm] using congrArg Lowered.resources (Except.ok.inj hreleased)
    have hrest : (((watchIndices array ty.element rest).under 1).run resources).Sound
        (.node none [i.typeAt table, typeAtAll table rest]) :=
      sound_under (watchIndices_sound rest hmatch h.2.2) rfl
    rw [hback]
    by_cases hlast : rest.isEmpty
    · simpa only [hlast, if_true] using hrest
    · simp only [hlast, Bool.false_eq_true, if_false]
      exact sound_liftM_bind fun loaded hloaded => by
        obtain rfl := Except.ok.inj hloaded
        exact hrest

end

mutual

/-- Lowering an expression comes past all occurrences in it. -/
theorem Expr.watch_reaches {table : SymbolTable} : (e : Expr) → {resources : Resources} →
    {out : Lowered Register} → e.watch.erase.run resources = .ok out → {path : Path} →
    {found : Occurrence × Ty} → e.typeAt table path = some found →
    (e.watch.run resources).Reaches path
  | .int .., resources, out, hrun, path, found, h | .bool .., resources, out, hrun, path, found, h
  | .char .., resources, out, hrun, path, found, h | .str .., resources, out, hrun, path, found, h
  | .null .., resources, out, hrun, path, found, h
  | .ident .., resources, out, hrun, path, found, h => by
    simp only [Expr.watch, Expr.typeAt] at hrun h ⊢
    rcases path with _ | ⟨i, path⟩
    · exact reaches_first hrun fun _ _ => reaches_visit _
    · simp [Decoration.node] at h
  | .elem span name indices, resources, out, hrun, path, found, h => by
    simp only [Expr.watch, Expr.typeAt] at hrun h ⊢
    rcases path with _ | ⟨_ | i, path⟩
    · exact reaches_first hrun fun _ _ => reaches_visit _
    · refine reaches_second hrun fun _ _ hrun => reaches_second hrun fun _ _ hrun => ?_
      exact reaches_first hrun fun _ hrun => reaches_under (watchIndices_reaches indices hrun h) 0
    · simp [Decoration.node] at h
  | .unary span op operand, resources, out, hrun, path, found, h => by
    simp only [Expr.watch, Expr.typeAt] at hrun h ⊢
    rcases path with _ | ⟨_ | i, path⟩
    · exact reaches_first hrun fun _ _ => reaches_visit _
    · refine reaches_second hrun fun _ _ hrun => ?_
      exact reaches_first hrun fun _ hrun => reaches_under (operand.watch_reaches hrun h) 0
    · simp [Decoration.node] at h
  | .binary span op lhs rhs, resources, out, hrun, path, found, h => by
    simp only [Expr.watch, Expr.typeAt] at hrun h ⊢
    rcases path with _ | ⟨_ | _ | i, path⟩
    · exact reaches_first hrun fun _ _ => reaches_visit _
    · refine reaches_second hrun fun _ _ hrun => reaches_first hrun fun _ hrun => ?_
      exact reaches_inOrder hrun (.inl fun _ _ hrun => reaches_under (lhs.watch_reaches hrun h) 0)
    · refine reaches_second hrun fun _ _ hrun => reaches_first hrun fun _ hrun => ?_
      exact reaches_inOrder hrun (.inr fun _ _ hrun => reaches_under (rhs.watch_reaches hrun h) 1)
    · simp [Decoration.node] at h

theorem watchIndices_reaches {table : SymbolTable} : (indices : List Expr) →
    {array : Register} → {ty : Ty} → {resources : Resources} → {out : Lowered Ty} →
    (watchIndices array ty indices).erase.run resources = .ok out → {path : Path} →
    {found : Occurrence × Ty} → typeAtAll table indices path = some found →
    ((watchIndices array ty indices).run resources).Reaches path
  | [], array, ty, resources, out, hrun, path, found, h => by
    simp [typeAtAll] at h
  | i :: rest, array, ty, resources, out, hrun, path, found, h => by
    simp only [watchIndices, typeAtAll] at hrun h ⊢
    obtain ⟨path, rfl, h⟩ | ⟨path, rfl, h⟩ := Decoration.of_two h
    · exact reaches_first hrun fun _ hrun => reaches_under (i.watch_reaches hrun h) 0
    · refine reaches_second hrun fun _ _ hrun => reaches_second hrun fun _ _ hrun =>
        reaches_second hrun fun _ _ hrun => ?_
      by_cases hlast : rest.isEmpty
      · simp only [hlast, if_true] at hrun ⊢
        exact reaches_under (watchIndices_reaches rest hrun h) 1
      · simp only [hlast, Bool.false_eq_true, if_false] at hrun ⊢
        exact reaches_second hrun fun _ _ hrun =>
          reaches_under (watchIndices_reaches rest hrun h) 1

end

/-! ## §4 Right sides and targets -/

theorem Expr.typeAt_nil (table : SymbolTable) (e : Expr) :
    e.typeAt table [] = some (.expr e, (e.check table).value) := by
  cases e <;> simp [Expr.typeAt, Decoration.node]

/-- Pushing an argument makes no difference to what is in sight. -/
theorem Matches.pushTemp {table : SymbolTable} {frame : Frame} (h : Matches table frame)
    (bytes : Int) : Matches table (frame.pushTemp bytes) where
  types := by simpa using h.types
  valid := h.valid

section Sound

variable {table : SymbolTable} {resources : Resources} {own : Option (Occurrence × Ty)}

theorem Expr.watchType_sound {e : Expr} (hmatch : Matches table resources.frame)
    (h : (e.check table).diagnostics = []) :
    (e.watchType.run resources).Sound (e.typeAt table) :=
  sound_visit_bind (e.typeAt_nil table) (e.check_clean hmatch h).type (silent_liftM _).sound

theorem Target.watchType_sound {t : Target} {span : Span} (hmatch : Matches table resources.frame)
    (h : (t.check table span).diagnostics = []) :
    (t.watchType.run resources).Sound (t.typeAt table span) := by
  refine sound_visit_bind rfl (Target.check_clean hmatch h).type ?_
  cases t with
  | ident name | elem name indices => exact (silent_liftM _).sound
  | side which pair =>
    simp only [Target.check, diagnostics_bind, List.append_eq_nil_iff] at h
    have hpair : ((visit (.expr pair)).run resources).Sound (pair.typeAt table) :=
      sound_visit (pair.typeAt_nil table) (pair.check_clean hmatch h.1).type
    exact sound_bind (sound_under hpair rfl) fun _ _ => (silent_liftM _).sound

namespace Watch

theorem sideAddress_sound {side : Side} {pair : Expr} (hmatch : Matches table resources.frame)
    (h : (pair.check table).diagnostics = []) :
    ((sideAddress side pair).run resources).Sound (.node own [pair.typeAt table]) :=
  sound_bind (sound_under (pair.watch_sound hmatch h) rfl) fun _ _ => (silent_liftM _).sound

theorem elementAddress_sound {name : String} {indices : List Expr}
    (hmatch : Matches table resources.frame)
    (h : (checkIndices table indices).diagnostics = []) :
    ((elementAddress name indices).run resources).Sound (.node own [typeAtAll table indices]) := by
  refine sound_liftM_bind fun array harray => ?_
  have hholds : array.resources = resources.hold array.value.1 :=
    (loadArray_fetches (.any _) harray).holds
  rw [hholds]
  exact sound_bind (sound_under (watchIndices_sound indices hmatch h) rfl)
    fun _ _ => (silent_pure _).sound

theorem literalElementType_sound {target : Ty} {elems : List Expr}
    (hmatch : Matches table resources.frame)
    (h : ∀ e ∈ elems, (e.check table).diagnostics = []) :
    ((literalElementType target elems).run resources).Sound (typeAtAll table elems) := by
  unfold literalElementType
  dsimp only
  split
  · exact (silent_pure _).sound
  · cases elems with
    | nil => exact (silent_pure _).sound
    | cons first rest =>
      simp only [typeAtAll]
      exact sound_under (Expr.watchType_sound hmatch (h first (by simp))) rfl

theorem storeElements_sound {array : Register} {ty : Ty} {index : Nat} {elems : List Expr}
    (hmatch : Matches table resources.frame)
    (h : ∀ e ∈ elems, (e.check table).diagnostics = []) :
    ((storeElements array ty index elems).run resources).Sound (typeAtAll table elems) := by
  induction elems generalizing index with
  | nil => exact (silent_pure _).sound
  | cons elem rest ih =>
    simp only [storeElements, typeAtAll]
    refine sound_bind (sound_under (elem.watch_sound hmatch (h elem (by simp))) rfl)
      fun value hvalue => ?_
    rw [erase_under, Expr.erase_watch] at hvalue
    have helem := elem.lower_fetches hvalue (.any _)
    refine sound_liftM_bind fun stored hstored => sound_liftM_bind fun released hreleased => ?_
    -- Neither step can fail, and together they undo what the element has taken.
    obtain rfl := Except.ok.inj hstored
    obtain rfl := Except.ok.inj hreleased
    simp only [helem.holds, Resources.hold, RegisterPool.release_hold]
    exact sound_under (ih fun e he => h e (List.mem_cons_of_mem _ he)) rfl

theorem arrayLiteral_sound {target : Ty} {elems : List Expr}
    (hmatch : Matches table resources.frame)
    (h : ∀ e ∈ elems, (e.check table).diagnostics = []) :
    ((arrayLiteral target elems).run resources).Sound (typeAtAll table elems) := by
  refine sound_bind (literalElementType_sound hmatch h) fun ty hty => ?_
  rw [erase_literalElementType] at hty
  rw [(literalElementType_eq_ok hty).1]
  refine sound_liftM_bind fun array harray => ?_
  rw [(allocate_fetches harray (.any _)).holds]
  exact sound_bind (storeElements_sound hmatch h) fun _ _ => (silent_liftM _).sound

theorem newPair_sound {fst snd : Expr} (hmatch : Matches table resources.frame)
    (hfst : (fst.check table).diagnostics = [])
    (hsnd : (snd.check table).diagnostics = []) :
    ((newPair fst snd).run resources).Sound
      (.node none [fst.typeAt table, snd.typeAt table]) := by
  refine sound_bind (sound_inOrder ?_ ?_ ?_ ?_) fun _ _ => (silent_liftM _).sound
  · exact fun start hframe =>
      sound_under (fst.watch_sound (hframe ▸ hmatch) hfst) rfl
  · exact fun start hframe =>
      sound_under (snd.watch_sound (hframe ▸ hmatch) hsnd) rfl
  · exact fun out hrun => Expr.frame_lower (by simpa using hrun)
  · exact fun out hrun => Expr.frame_lower (by simpa using hrun)

theorem pushArgs_sound {params : List Param} {args : List Expr}
    (hmatch : Matches table resources.frame)
    (h : ∀ e ∈ args, (e.check table).diagnostics = []) :
    ((pushArgs params args).run resources).Sound (typeAtAll table args) := by
  induction args generalizing params with
  | nil => exact (silent_pure _).sound
  | cons arg args ih =>
    have harg := h arg (by simp)
    simp only [pushArgs, typeAtAll]
    refine sound_bind (sound_under (ih fun e he => h e (List.mem_cons_of_mem _ he)) rfl)
      fun others hothers => ?_
    rw [erase_under, erase_pushArgs] at hothers
    obtain ⟨hres, _⟩ := pushArgs_eq_ok hothers (.any _)
    rw [hres]
    -- The arguments pushed before have moved the stack pointer and nothing else.
    have hpushed := hmatch.pushTemp (slotBytes * args.length : Nat)
    refine sound_bind ?_ fun ty hty => ?_
    · cases params with
      | nil => exact sound_under (Expr.watchType_sound hpushed harg) rfl
      | cons param rest => exact (silent_pure _).sound
    · rw [erase_argType] at hty
      rw [(argType_eq_ok hty).1]
      exact sound_bind
        (sound_under (arg.watch_sound hpushed harg) rfl)
        fun _ _ => (silent_liftM _).sound

theorem callFunction_sound {known : SymbolTable} {name : String} {args : List Expr}
    (hmatch : Matches table resources.frame)
    (h : ∀ e ∈ args, (e.check table).diagnostics = []) :
    ((callFunction known name args).run resources).Sound (typeAtAll table args) := by
  unfold callFunction
  cases known.function? name with
  | none => exact (silent_liftM _).sound
  | some signature =>
    exact sound_bind (pushArgs_sound hmatch h) fun _ _ => (silent_liftM _).sound

end Watch

/-- In a right side that was checked without a diagnostic all visits agree. -/
theorem Rhs.watch_sound {known : SymbolTable} {target : Ty} {rhs : Rhs} {span : Span}
    (hmatch : Matches table resources.frame)
    (h : (rhs.check table span).diagnostics = []) :
    ((rhs.watch known target).run resources).Sound (rhs.typeAt table) := by
  cases rhs with
  | expr e => exact e.watch_sound hmatch h
  | array elems =>
    refine arrayLiteral_sound hmatch ?_
    cases elems with
    | nil => simp
    | cons first rest =>
      simp only [Rhs.check, diagnostics_bind, List.append_eq_nil_iff] at h
      simpa using ⟨h.1, checkElements_each h.2.1⟩
  | newPair fst snd =>
    simp only [Rhs.check, diagnostics_bind, List.append_eq_nil_iff] at h
    exact newPair_sound hmatch h.1 h.2.1
  | side which pair =>
    simp only [Rhs.check, diagnostics_bind, List.append_eq_nil_iff] at h
    exact sound_bind (sideAddress_sound hmatch h.1) fun _ _ => (silent_liftM _).sound
  | call name args =>
    refine callFunction_sound hmatch ?_
    unfold Rhs.check at h
    cases hfun : table.function? name with
    | none => simp [hfun, note] at h
    | some signature =>
      simp only [hfun, diagnostics_bind, List.append_eq_nil_iff] at h
      exact checkArgs_each h.2.1

/-- In a target that was checked without a diagnostic all visits agree. -/
theorem Target.watchPlace_sound {t : Target} {span : Span} (hmatch : Matches table resources.frame)
    (h : (t.check table span).diagnostics = []) :
    (t.watchPlace.run resources).Sound (t.typeAt table span) := by
  cases t with
  | ident name => exact (silent_liftM _).sound
  | elem name indices =>
    simp only [Target.check, diagnostics_bind, List.append_eq_nil_iff] at h
    exact sound_bind (elementAddress_sound hmatch h.2.1) fun _ _ => (silent_pure _).sound
  | side which pair =>
    simp only [Target.check, diagnostics_bind, List.append_eq_nil_iff] at h
    exact sound_bind (sideAddress_sound hmatch h.1) fun _ _ => (silent_pure _).sound

end Sound

section Reaches

variable {table : SymbolTable} {resources : Resources} {path : Path} {found : Occurrence × Ty}

namespace Watch

theorem sideAddress_reaches {side : Side} {pair : Expr} {out : Lowered Register}
    (hrun : (sideAddress side pair).erase.run resources = .ok out)
    (h : pair.typeAt table path = some found) :
    ((sideAddress side pair).run resources).Reaches (0 :: path) :=
  reaches_first hrun fun _ hrun => reaches_under (pair.watch_reaches hrun h) 0

theorem elementAddress_reaches {name : String} {indices : List Expr}
    {out : Lowered (Register × Ty)}
    (hrun : (elementAddress name indices).erase.run resources = .ok out)
    (h : typeAtAll table indices path = some found) :
    ((elementAddress name indices).run resources).Reaches (0 :: path) :=
  reaches_second hrun fun _ _ hrun =>
    reaches_first hrun fun _ hrun => reaches_under (watchIndices_reaches indices hrun h) 0

theorem storeElements_reaches {array : Register} {ty : Ty} {index : Nat} {elems : List Expr}
    {out : Lowered Unit} (hrun : (storeElements array ty index elems).erase.run resources = .ok out)
    (h : typeAtAll table elems path = some found) :
    ((storeElements array ty index elems).run resources).Reaches path := by
  induction elems generalizing index resources path out with
  | nil => simp [typeAtAll] at h
  | cons elem rest ih =>
    simp only [storeElements, typeAtAll] at hrun h ⊢
    obtain ⟨path, rfl, h⟩ | ⟨path, rfl, h⟩ := Decoration.of_two h
    · exact reaches_first hrun fun _ hrun => reaches_under (elem.watch_reaches hrun h) 0
    · exact reaches_second hrun fun _ _ hrun => reaches_second hrun fun _ _ hrun =>
        reaches_second hrun fun _ _ hrun => reaches_under (ih hrun h) 1

theorem pushArgs_reaches {params : List Param} {args : List Expr} {out : Lowered Unit}
    (hrun : (pushArgs params args).erase.run resources = .ok out)
    (h : typeAtAll table args path = some found) :
    ((pushArgs params args).run resources).Reaches path := by
  induction args generalizing params resources path out with
  | nil => simp [typeAtAll] at h
  | cons arg args ih =>
    simp only [pushArgs, typeAtAll] at hrun h ⊢
    obtain ⟨path, rfl, h⟩ | ⟨path, rfl, h⟩ := Decoration.of_two h
    · exact reaches_second hrun fun _ _ hrun => reaches_second hrun fun _ _ hrun =>
        reaches_first hrun fun _ hrun => reaches_under (arg.watch_reaches hrun h) 0
    · exact reaches_first hrun fun _ hrun => reaches_under (ih hrun h) 1

theorem newPair_reaches {fst snd : Expr} {out : Lowered Register}
    (hrun : (newPair fst snd).erase.run resources = .ok out)
    (h : Decoration.node none [fst.typeAt table, snd.typeAt table] path = some found) :
    ((newPair fst snd).run resources).Reaches path := by
  obtain ⟨path, rfl, h⟩ | ⟨path, rfl, h⟩ := Decoration.of_two h
  · refine reaches_first hrun fun _ hrun => reaches_inOrder hrun (.inl fun _ _ hrun => ?_)
    exact reaches_under (fst.watch_reaches hrun h) 0
  · refine reaches_first hrun fun _ hrun => reaches_inOrder hrun (.inr fun _ _ hrun => ?_)
    exact reaches_under (snd.watch_reaches hrun h) 1

end Watch

/-- Lowering a right side comes past all occurrences in it. -/
theorem Rhs.watch_reaches {known : SymbolTable} {target : Ty} {rhs : Rhs} {out : Lowered Register}
    (hrun : (rhs.watch known target).erase.run resources = .ok out)
    (h : rhs.typeAt table path = some found) :
    ((rhs.watch known target).run resources).Reaches path := by
  cases rhs with
  | expr e => exact e.watch_reaches hrun h
  | array elems =>
    exact reaches_second hrun fun _ _ hrun => reaches_second hrun fun _ _ hrun =>
      reaches_first hrun fun _ hrun => storeElements_reaches hrun h
  | newPair fst snd => exact newPair_reaches hrun h
  | side which pair =>
    obtain ⟨path, rfl, h⟩ := Decoration.of_one h
    exact reaches_first hrun fun _ hrun => sideAddress_reaches hrun h
  | call name args =>
    simp only [Rhs.watch, Watch.callFunction] at hrun ⊢
    cases hfun : known.function? name with
    | none => simp [hfun] at hrun
    | some signature =>
      simp only [hfun] at hrun ⊢
      exact reaches_first hrun fun _ hrun => pushArgs_reaches hrun h

theorem Target.watchType_reaches {t : Target} {out : Lowered Ty}
    (hrun : t.watchType.erase.run resources = .ok out) :
    (t.watchType.run resources).Reaches [] :=
  reaches_first hrun fun _ _ => reaches_visit _

/-- Finding the place of a target comes past all occurrences in it. -/
theorem Target.watchPlace_reaches {t : Target} (span : Span) {i : Nat} {out : Lowered Place}
    (hrun : t.watchPlace.erase.run resources = .ok out)
    (h : t.typeAt table span (i :: path) = some found) :
    (t.watchPlace.run resources).Reaches (i :: path) := by
  cases t with
  | ident name => simp [Target.typeAt, Decoration.node] at h
  | elem name indices =>
    rcases i with _ | n
    · exact reaches_first hrun fun _ hrun => elementAddress_reaches hrun h
    · simp [Target.typeAt, Decoration.node] at h
  | side which pair =>
    rcases i with _ | n
    · exact reaches_first hrun fun _ hrun => sideAddress_reaches hrun h
    · simp [Target.typeAt, Decoration.node] at h

end Reaches

/-! ## §5 Statements -/

namespace Watch

variable {known table : SymbolTable} {resources : Resources} {d : Decoration} {path : Path}

/-- A plain step of which is known where it leads. -/
theorem sound_liftM_of_ok {α β : Type} {step : Lower α} {next : α → Watch β} {first : Lowered α}
    (hrun : step.run resources = .ok first)
    (hnext : ((next first.value).run first.resources).Sound d) :
    (((liftM step : Watch α) >>= next).run resources).Sound d := by
  refine sound_liftM_bind fun first' hrun' => ?_
  obtain rfl := Except.ok.inj (hrun.symm.trans hrun')
  exact hnext

theorem inScope_sound {slots : Nat} {step : Watch Unit}
    (h : (step.run { resources with frame := resources.frame.openScope slots }).Sound d) :
    (((observer known).inScope slots step).run resources).Sound d := by
  refine sound_liftM_of_ok (run_modifyFrame _ _) (sound_liftM_of_ok (run_emitAll _ _) ?_)
  exact sound_bind h fun _ _ => (silent_liftM _).sound

theorem printValue_sound {e : Expr} (hmatch : Matches table resources.frame)
    (h : (e.check table).diagnostics = []) :
    ((printValue e).run resources).Sound (e.typeAt table) := by
  refine sound_bind (Expr.watchType_sound hmatch h) fun ty hty => ?_
  rw [Expr.erase_watchType, run_typeOf, run_ofExcept_eq_ok] at hty
  obtain ⟨_, _, rfl⟩ := hty
  exact sound_bind (e.watch_sound hmatch h) fun _ _ => (silent_liftM _).sound

theorem testCondition_sound {cond : Expr} {value : Int} (hmatch : Matches table resources.frame)
    (h : (checkCondition table cond).diagnostics = []) :
    (((observer known).testCondition cond value).run resources).Sound (cond.typeAt table) := by
  simp only [checkCondition, diagnostics_bind, List.append_eq_nil_iff] at h
  exact sound_bind (cond.watch_sound hmatch h.1) fun _ _ => (silent_liftM _).sound

theorem loopBack_sound {cond : Expr} {top : String} (hmatch : Matches table resources.frame)
    (h : (checkCondition table cond).diagnostics = []) :
    (((observer known).loopBack cond top).run resources).Sound (cond.typeAt table) :=
  sound_bind (testCondition_sound hmatch h) fun _ _ => (silent_liftM _).sound

/-- What is visited in a scope is visited. -/
theorem inScope_reaches {slots : Nat} {step : Watch Unit} {out : Lowered Unit}
    (hrun : ((observer known).inScope slots step).erase.run resources = .ok out)
    (h : ∀ {start : Resources} {out : Lowered Unit}, step.erase.run start = .ok out →
      (step.run start).Reaches path) :
    (((observer known).inScope slots step).run resources).Reaches path :=
  reaches_second hrun fun _ _ hrun => reaches_second hrun fun _ _ hrun =>
    reaches_first hrun fun _ hrun => h hrun

theorem printValue_reaches {e : Expr} {out : Lowered Unit} {found : Occurrence × Ty}
    (hrun : (printValue e).erase.run resources = .ok out)
    (h : e.typeAt table path = some found) : ((printValue e).run resources).Reaches path :=
  reaches_second hrun fun _ _ hrun => reaches_first hrun fun _ hrun => e.watch_reaches hrun h

theorem testCondition_reaches {cond : Expr} {value : Int} {out : Lowered Unit}
    {found : Occurrence × Ty}
    (hrun : ((observer known).testCondition cond value).erase.run resources = .ok out)
    (h : cond.typeAt table path = some found) :
    (((observer known).testCondition cond value).run resources).Reaches path :=
  reaches_first hrun fun _ hrun => cond.watch_reaches hrun h

theorem loopBack_reaches {cond : Expr} {top : String} {out : Lowered Unit}
    {found : Occurrence × Ty}
    (hrun : ((observer known).loopBack cond top).erase.run resources = .ok out)
    (h : cond.typeAt table path = some found) :
    (((observer known).loopBack cond top).run resources).Reaches path :=
  reaches_first hrun fun _ hrun => testCondition_reaches hrun h

end Watch

/-- Typing a target changes nothing. -/
theorem Target.resources_watchType {t : Target} {resources : Resources} {out : Lowered Ty}
    (hrun : t.watchType.erase.run resources = .ok out) : out.resources = resources := by
  rw [Target.erase_watchType, run_bind_eq_ok] at hrun
  obtain ⟨_, second, hframe, hsecond, rfl⟩ := hrun
  obtain rfl := Except.ok.inj hframe
  obtain ⟨_, _, rfl⟩ := run_ofExcept_eq_ok.1 hsecond
  rfl

/-- In a statement that was checked without a diagnostic all visits agree. -/
theorem Stmt.watch_sound (s : Stmt) {known table : SymbolTable} {resources : Resources}
    (hclean : (s.check table).diagnostics = [])
    (htypes : ∀ ty ∈ s.variableTypes, ty.isValid)
    (hready : ArmCompiler.Ready known table resources) :
    ((s.watch known).run resources).Sound (s.typeAt table) := by
  -- Every part is lowered from resources that are ready for the table that it is checked with;
  -- the facts on how statements are lowered carry `Ready` from one part to the next.
  induction s generalizing table resources with
  | skip span => exact (silent_pure _).sound
  | increment span name => exact (silent_liftM _).sound
  | declare span ty name rhs =>
    obtain ⟨hrhs, _⟩ := check_declare_clean hclean
    exact sound_bind (sound_under (Rhs.watch_sound hready.frame hrhs) rfl)
      fun _ _ => (silent_liftM _).sound
  | assign span target rhs =>
    simp only [check, diagnostics_bind, List.append_eq_nil_iff] at hclean
    refine sound_bind (sound_under (Target.watchType_sound hready.frame hclean.1) rfl)
      fun ty hty => ?_
    rw [Target.resources_watchType hty]
    refine sound_bind (sound_under (Rhs.watch_sound hready.frame hclean.2.1) rfl)
      fun value hvalue => ?_
    rw [erase_rhs] at hvalue
    -- The right side holds one register more and has left the frame alone.
    rw [(Rhs.lower_brings hvalue (.any _) hready.laid hready.returnFree).holds]
    exact sound_bind (sound_under (Target.watchPlace_sound hready.frame hclean.1) rfl)
      fun _ _ => (silent_liftM _).sound
  | read span target =>
    simp only [check, diagnostics_bind, List.append_eq_nil_iff] at hclean
    refine sound_bind (sound_under (Target.watchType_sound hready.frame hclean.1) rfl)
      fun ty hty => ?_
    rw [Target.resources_watchType hty]
    exact sound_bind (sound_under (Target.watchPlace_sound hready.frame hclean.1) rfl)
      fun _ _ => (silent_liftM _).sound
  | free span e | ret span e | exit span e =>
    simp only [check, diagnostics_bind, List.append_eq_nil_iff] at hclean
    exact sound_bind (sound_under (e.watch_sound hready.frame hclean.1) rfl)
      fun _ _ => (silent_liftM _).sound
  | print span e =>
    simp only [check, diagnostics_bind, List.append_eq_nil_iff] at hclean
    exact sound_under (printValue_sound hready.frame hclean.1) rfl
  | println span e =>
    simp only [check, diagnostics_bind, List.append_eq_nil_iff] at hclean
    exact sound_bind (sound_under (printValue_sound hready.frame hclean.1) rfl)
      fun _ _ => (silent_liftM _).sound
  | ifThen span cond arm ih =>
    simp only [check, diagnostics_bind, List.append_eq_nil_iff,
      SymbolTable.diagnostics_scoped] at hclean
    have hnext := hready.withLabel (resources.nextLabel + 1)
    refine sound_liftM_of_ok (run_freshLabel _) ?_
    refine sound_bind (sound_under (testCondition_sound hnext.frame hclean.1) rfl)
      fun test htest => sound_liftM_of_ok (run_emit _ _) ?_
    rw [erase_test] at htest
    refine sound_bind (inScope_sound (sound_under (ih hclean.2 htypes ?_) rfl))
      fun _ _ => (silent_liftM _).sound
    exact (hnext.testCondition htest).openScope _
  | ifElse span cond thenArm elseArm ihThen ihElse =>
    simp only [check, diagnostics_bind, List.append_eq_nil_iff, diagnostics_pure, and_true,
      SymbolTable.diagnostics_scoped, value_scoped_check] at hclean
    simp only [variableTypes, List.mem_append] at htypes
    have hnext := hready.withLabel (resources.nextLabel + 1)
    refine sound_liftM_of_ok (run_freshLabel _) ?_
    refine sound_bind (sound_under (testCondition_sound hnext.frame hclean.1) rfl)
      fun test htest => ?_
    rw [erase_test] at htest
    have htested := (hnext.testCondition htest).withLabel (test.resources.nextLabel + 1)
    refine sound_liftM_of_ok (run_freshLabel _) (sound_liftM_of_ok (run_emit _ _) ?_)
    refine sound_bind (inScope_sound (sound_under
      (ihThen hclean.2.1 (fun ty hty => htypes ty (.inl hty)) (htested.openScope _)) rfl))
      fun arm harm => ?_
    rw [erase_scope] at harm
    refine sound_liftM_of_ok (run_emit _ _) (sound_liftM_of_ok (run_emit _ _) ?_)
    refine sound_bind (inScope_sound (sound_under
      (ihElse hclean.2.2 (fun ty hty => htypes ty (.inr hty)) ?_) rfl))
      fun _ _ => (silent_liftM _).sound
    exact (htested.inScope harm).openScope _
  | whileDo span cond body ih =>
    simp only [check, diagnostics_bind, List.append_eq_nil_iff,
      SymbolTable.diagnostics_scoped] at hclean
    have hnext := hready.withLabel (resources.nextLabel + 1 + 1)
    refine sound_liftM_of_ok (run_freshLabel _) (sound_liftM_of_ok (run_freshLabel _)
      (sound_liftM_of_ok (run_emit _ _) (sound_liftM_of_ok (run_emit _ _) ?_)))
    refine sound_bind (inScope_sound (sound_under (ih hclean.2 htypes (hnext.openScope _)) rfl))
      fun round hround => sound_liftM_of_ok (run_emit _ _) ?_
    rw [erase_scope] at hround
    have hafter := hnext.inScope hround
    exact sound_under (loopBack_sound hafter.frame hclean.1) rfl
  | doWhile span body cond ih =>
    simp only [check, diagnostics_bind, List.append_eq_nil_iff, diagnostics_pure, and_true,
      SymbolTable.diagnostics_scoped, value_scoped_check] at hclean
    have hnext := hready.withLabel (resources.nextLabel + 1)
    refine sound_liftM_of_ok (run_freshLabel _) (sound_liftM_of_ok (run_emit _ _) ?_)
    refine sound_bind (inScope_sound (sound_under (ih hclean.1 htypes (hnext.openScope _)) rfl))
      fun round hround => ?_
    rw [erase_scope] at hround
    have hafter := hnext.inScope hround
    exact sound_under (loopBack_sound hafter.frame hclean.2) rfl
  | forLoop span init cond step body ihInit ihStep ihBody =>
    simp only [check_forLoop, SymbolTable.diagnostics_scoped] at hclean
    obtain ⟨hfirst, hcond, hslots, hlast, hbody⟩ := checkFor_clean hclean
    simp only [variableTypes, List.mem_append] at htypes
    have htypesInit : ∀ ty ∈ init.variableTypes, ty.isValid :=
      fun ty hty => htypes ty (.inl (.inl hty))
    have htypesStep : ∀ ty ∈ step.variableTypes, ty.isValid :=
      fun ty hty => htypes ty (.inl (.inr hty))
    have hopen := hready.openScope init.slots
    -- The last clause declares nothing, so the body is checked with what the first one left.
    simp only [watch, typeAt, check_of_slots hslots]
    refine inScope_sound (sound_bind (sound_under (ihInit hfirst htypesInit hopen) rfl)
      fun first hrun => ?_)
    rw [erase_stmt] at hrun
    have hinit := hopen.lower hrun hfirst htypesInit
    have hnext := hinit.withLabel (first.resources.nextLabel + 1 + 1)
    refine sound_liftM_of_ok (run_freshLabel _) (sound_liftM_of_ok (run_freshLabel _)
      (sound_liftM_of_ok (run_emit _ _) (sound_liftM_of_ok (run_emit _ _) ?_)))
    refine sound_bind (inScope_sound (sound_under
      (ihBody hbody (fun ty hty => htypes ty (.inr hty)) (hnext.openScope _)) rfl))
      fun round hround => ?_
    rw [erase_scope] at hround
    have hafter := hnext.inScope hround
    refine sound_bind (sound_under (ihStep hlast htypesStep hafter) rfl)
      fun last hlastRun => sound_liftM_of_ok (run_emit _ _) ?_
    rw [erase_stmt] at hlastRun
    have hstep := hafter.lower hlastRun hlast htypesStep
    rw [check_of_slots hslots] at hstep
    exact sound_under (loopBack_sound hstep.frame hcond) rfl
  | block span body ih =>
    simp only [check, SymbolTable.diagnostics_scoped] at hclean
    exact inScope_sound (sound_under (ih hclean htypes (hready.openScope _)) rfl)
  | seq span first second ihFirst ihSecond =>
    obtain ⟨hfirst, hsecond, _⟩ := check_seq_clean hclean
    simp only [variableTypes, List.mem_append] at htypes
    have htypesFirst : ∀ ty ∈ first.variableTypes, ty.isValid :=
      fun ty hty => htypes ty (.inl hty)
    refine sound_bind (sound_under (ihFirst hfirst htypesFirst hready) rfl) fun a ha => ?_
    rw [erase_stmt] at ha
    exact sound_under (ihSecond hsecond (fun ty hty => htypes ty (.inr hty))
      (hready.lower ha hfirst htypesFirst)) rfl

/-- Lowering a statement comes past all occurrences in it. -/
theorem Stmt.watch_reaches (s : Stmt) {known table : SymbolTable} {resources : Resources}
    {out : Lowered Unit} {path : Path} {found : Occurrence × Ty}
    (hrun : (s.watch known).erase.run resources = .ok out)
    (h : s.typeAt table path = some found) : ((s.watch known).run resources).Reaches path := by
  -- The path says which part to go into: `reaches_second` leaves a step behind, `reaches_first`
  -- goes into one.
  induction s generalizing table resources out path with
  | skip span | increment span name => simp [typeAt] at h
  | declare span ty name rhs =>
    obtain ⟨path, rfl, h⟩ := Decoration.of_one h
    exact reaches_first hrun fun _ hrun => reaches_under (Rhs.watch_reaches hrun h) 0
  | assign span target rhs =>
    obtain ⟨path, rfl, h⟩ | ⟨path, rfl, h⟩ := Decoration.of_two h
    · rcases path with _ | ⟨i, path⟩
      · exact reaches_first hrun fun _ hrun => reaches_under (Target.watchType_reaches hrun) 0
      · iterate 2 refine reaches_second hrun fun _ _ hrun => ?_
        exact reaches_first hrun fun _ hrun =>
          reaches_under (Target.watchPlace_reaches span hrun h) 0
    · refine reaches_second hrun fun _ _ hrun => ?_
      exact reaches_first hrun fun _ hrun => reaches_under (Rhs.watch_reaches hrun h) 1
  | read span target =>
    obtain ⟨path, rfl, h⟩ := Decoration.of_one h
    rcases path with _ | ⟨i, path⟩
    · exact reaches_first hrun fun _ hrun => reaches_under (Target.watchType_reaches hrun) 0
    · refine reaches_second hrun fun _ _ hrun => ?_
      exact reaches_first hrun fun _ hrun =>
        reaches_under (Target.watchPlace_reaches span hrun h) 0
  | free span e | ret span e | exit span e =>
    obtain ⟨path, rfl, h⟩ := Decoration.of_one h
    exact reaches_first hrun fun _ hrun => reaches_under (e.watch_reaches hrun h) 0
  | print span e =>
    obtain ⟨path, rfl, h⟩ := Decoration.of_one h
    exact reaches_under (printValue_reaches hrun h) 0
  | println span e =>
    obtain ⟨path, rfl, h⟩ := Decoration.of_one h
    exact reaches_first hrun fun _ hrun => reaches_under (printValue_reaches hrun h) 0
  | ifThen span cond arm ih =>
    obtain ⟨path, rfl, h⟩ | ⟨path, rfl, h⟩ := Decoration.of_two h
    · refine reaches_second hrun fun _ _ hrun => ?_
      exact reaches_first hrun fun _ hrun => reaches_under (testCondition_reaches hrun h) 0
    · iterate 3 refine reaches_second hrun fun _ _ hrun => ?_
      exact reaches_first hrun fun _ hrun => inScope_reaches hrun fun hrun =>
        reaches_under (ih hrun h) 1
  | ifElse span cond thenArm elseArm ihThen ihElse =>
    rcases path with _ | ⟨_ | _ | _ | n, path⟩
    · simp [typeAt, Decoration.node] at h
    · refine reaches_second hrun fun _ _ hrun => ?_
      exact reaches_first hrun fun _ hrun => reaches_under (testCondition_reaches hrun h) 0
    · iterate 4 refine reaches_second hrun fun _ _ hrun => ?_
      exact reaches_first hrun fun _ hrun => inScope_reaches hrun fun hrun =>
        reaches_under (ihThen hrun h) 1
    · iterate 7 refine reaches_second hrun fun _ _ hrun => ?_
      exact reaches_first hrun fun _ hrun => inScope_reaches hrun fun hrun =>
        reaches_under (ihElse hrun h) 2
    · simp [typeAt, Decoration.node] at h
  | whileDo span cond body ih =>
    obtain ⟨path, rfl, h⟩ | ⟨path, rfl, h⟩ := Decoration.of_two h
    · iterate 6 refine reaches_second hrun fun _ _ hrun => ?_
      exact reaches_under (loopBack_reaches hrun h) 0
    · iterate 4 refine reaches_second hrun fun _ _ hrun => ?_
      exact reaches_first hrun fun _ hrun => inScope_reaches hrun fun hrun =>
        reaches_under (ih hrun h) 1
  | doWhile span body cond ih =>
    obtain ⟨path, rfl, h⟩ | ⟨path, rfl, h⟩ := Decoration.of_two h
    · iterate 2 refine reaches_second hrun fun _ _ hrun => ?_
      exact reaches_first hrun fun _ hrun => inScope_reaches hrun fun hrun =>
        reaches_under (ih hrun h) 0
    · iterate 3 refine reaches_second hrun fun _ _ hrun => ?_
      exact reaches_under (loopBack_reaches hrun h) 1
  | forLoop span init cond step body ihInit ihStep ihBody =>
    refine inScope_reaches hrun fun hrun => ?_
    rcases path with _ | ⟨_ | _ | _ | _ | n, path⟩
    · simp [typeAt, Decoration.node] at h
    · exact reaches_first hrun fun _ hrun => reaches_under (ihInit hrun h) 0
    · iterate 8 refine reaches_second hrun fun _ _ hrun => ?_
      exact reaches_under (loopBack_reaches hrun h) 1
    · iterate 6 refine reaches_second hrun fun _ _ hrun => ?_
      exact reaches_first hrun fun _ hrun => reaches_under (ihStep hrun h) 2
    · iterate 5 refine reaches_second hrun fun _ _ hrun => ?_
      exact reaches_first hrun fun _ hrun => inScope_reaches hrun fun hrun =>
        reaches_under (ihBody hrun h) 3
    · simp [typeAt, Decoration.node] at h
  | block span body ih =>
    obtain ⟨path, rfl, h⟩ := Decoration.of_one h
    exact inScope_reaches hrun fun hrun => reaches_under (ih hrun h) 0
  | seq span first second ihFirst ihSecond =>
    obtain ⟨path, rfl, h⟩ | ⟨path, rfl, h⟩ := Decoration.of_two h
    · exact reaches_first hrun fun _ hrun => reaches_under (ihFirst hrun h) 0
    · refine reaches_second hrun fun _ _ hrun => ?_
      exact reaches_under (ihSecond hrun h) 1

/-! ## §6 Programs -/

theorem Stmt.watchBody_sound {known table : SymbolTable} {body : Stmt} {resources : Resources}
    (hclean : (body.check table).diagnostics = [])
    (htypes : ∀ ty ∈ body.variableTypes, ty.isValid)
    (hready : ArmCompiler.Ready known table resources) :
    ((body.watchBody known).run resources).Sound (body.typeAt table) :=
  inScope_sound (body.watch_sound hclean htypes (hready.openBody _))

theorem Stmt.watchBody_reaches {known table : SymbolTable} {body : Stmt} {resources : Resources}
    {out : Lowered Unit} {path : Path} {found : Occurrence × Ty}
    (hrun : (body.watchBody known).erase.run resources = .ok out)
    (h : body.typeAt table path = some found) :
    ((body.watchBody known).run resources).Reaches path :=
  inScope_reaches hrun fun hrun => body.watch_reaches hrun h

namespace Assembly

variable {config : Config} {label : String} {frame : Frame} {assembly assembly' : Assembly}

theorem watchAdd_sound {body : Watch Unit} {d : Decoration}
    (h : (body.run { assembly.resources with frame }).Sound d) :
    (assembly.watchAdd config label frame body).Sound d := by
  refine (Recorded.sound_liftM _).bind fun _ _ => h.bind fun _ _ => ?_
  refine (Recorded.sound_liftM _).bind fun _ _ => (Recorded.sound_liftM _).bind fun _ _ => ?_
  exact Recorded.sound_pure _

theorem watchAdd_reaches {body : Watch Unit} {path : Path}
    (hrun : (assembly.watchAdd config label frame body).result = .ok assembly')
    (h : ∀ lowered, body.erase.run { assembly.resources with frame } = .ok lowered →
      (body.run { assembly.resources with frame }).Reaches path) :
    (assembly.watchAdd config label frame body).Reaches path :=
  Recorded.Reaches.second hrun fun _ _ hrun => Recorded.Reaches.first hrun h

/-- After a sequence was added the resources are those that its body has left. -/
theorem resources_add {body : Lower Unit}
    (h : assembly.add config label frame body = .ok assembly') :
    ∃ lowered, body.run { assembly.resources with frame } = .ok lowered ∧
      assembly'.resources = lowered.resources := by
  simp only [add, bind, Except.bind] at h
  -- Neither the labels nor the texts of the listing have a say in the resources.
  cases hstart : assembly.listing.start label true with
  | error e => simp [hstart] at h
  | ok opened =>
    cases hrun : body.run { assembly.resources with frame } with
    | error e => simp [hstart, hrun] at h
    | ok lowered =>
      refine ⟨lowered, rfl, ?_⟩
      simp only [hstart, hrun] at h
      split at h
      · cases h
      · split at h
        · cases h
        · obtain rfl := Except.ok.inj h
          rfl

/-- The return register is free again after a body was added. -/
theorem returnHeld_watchAdd {table : SymbolTable} {body : Stmt} (hlaid : frame.Laid)
    (hreturn : assembly.resources.pool.returnHeld = false)
    (h : (assembly.watchAdd config label frame (body.watchBody table)).result = .ok assembly') :
    assembly'.resources.pool.returnHeld = false := by
  rw [result_watchAdd, Stmt.erase_watchBody] at h
  obtain ⟨lowered, hrun, hresources⟩ := resources_add h
  rw [hresources, (Stmt.lowerBody_balanced hrun (.any _) hlaid hreturn).pool]
  exact hreturn

end Assembly

theorem returnHeld_watchFunctions {table : SymbolTable} {config : Config}
    {functions : List Function} {assembly assembly' : Assembly}
    (hreturn : assembly.resources.pool.returnHeld = false)
    (h : (watchFunctions table config functions assembly).result = .ok assembly') :
    assembly'.resources.pool.returnHeld = false := by
  induction functions generalizing assembly with
  | nil =>
    obtain rfl := Except.ok.inj h
    exact hreturn
  | cons f rest ih =>
    simp only [watchFunctions, Recorded.result_bind, Recorded.result_under] at h
    cases hnext : (assembly.watchAdd config (functionLabel f.name) (.ofParams f.params)
        (f.body.watchBody table)).result with
    | error e => simp [hnext, bind, Except.bind] at h
    | ok next =>
      rw [hnext] at h
      exact ih (Assembly.returnHeld_watchAdd (Frame.laid_ofParams _) hreturn hnext) h

/-- The types in the bodies of functions that are all checked under one table. -/
def bodiesTypeAt (table : SymbolTable) : List Function → Decoration
  | [] => .node none []
  | f :: rest => .node none [f.body.typeAt (table.inFunction f), bodiesTypeAt table rest]

theorem functionsTypeAt_clean {functions : List Function} {table : SymbolTable}
    (hfound : ∀ f ∈ functions, table.function? f.name = some f.signature)
    (hcurrent : table.current = none)
    (h : (functions.foldlM Function.check table).diagnostics = []) :
    functionsTypeAt functions table = bodiesTypeAt table functions := by
  induction functions with
  | nil => rfl
  | cons f rest ih =>
    simp only [List.foldlM_cons, diagnostics_bind, List.append_eq_nil_iff] at h
    obtain ⟨hvalue, _⟩ := Function.check_clean (hfound f (by simp)) hcurrent h.1
    rw [hvalue] at h
    rw [functionsTypeAt, bodiesTypeAt, hvalue, Function.enter_clean (hfound f (by simp)) h.1,
      ih (fun g hg => hfound g (List.mem_cons_of_mem _ hg)) h.2]

namespace Program

/-- In a program without a diagnostic all bodies are checked under the table of its functions. -/
theorem typeAt_clean {p : Program} (h : p.check.diagnostics = []) :
    p.typeAt =
      .node none [bodiesTypeAt p.functionTable p.functions, p.body.typeAt p.functionTable] := by
  obtain ⟨htable, _, hfunctions, hkept, hfound, _⟩ := tables_clean h
  simp only [typeAt, htable, hkept, functionsTypeAt_clean hfound rfl hfunctions]

/-- In the functions of a program without a diagnostic all visits agree. -/
theorem Clean.watchFunctions_sound {p : Program} (h : p.Clean) (config : Config)
    (htypes : ∀ ty ∈ p.variableTypes, ty.isValid) {functions : List Function}
    (hfunctions : ∀ f ∈ functions, f ∈ p.functions) {assembly : Assembly}
    (hreturn : assembly.resources.pool.returnHeld = false) :
    (watchFunctions p.check.value config functions assembly).Sound
      (bodiesTypeAt p.functionTable functions) := by
  induction functions generalizing assembly with
  | nil => exact Recorded.sound_pure _
  | cons f rest ih =>
    have hf : f ∈ p.functions := hfunctions f (by simp)
    have hbody : ((f.body.watchBody p.check.value).run
        { assembly.resources with frame := .ofParams f.params }).Sound
        (f.body.typeAt (p.functionTable.inFunction f)) :=
      Stmt.watchBody_sound (h.functions f hf)
        (fun ty hty => htypes ty (mem_variableTypes_of_body hf hty))
        (h.ready_function htypes hf rfl hreturn)
    refine (Recorded.Sound.under (Assembly.watchAdd_sound hbody) rfl).bind fun next hnext => ?_
    exact Recorded.Sound.under (ih (fun g hg => hfunctions g (List.mem_cons_of_mem _ hg))
      (Assembly.returnHeld_watchAdd (Frame.laid_ofParams _) hreturn hnext)) rfl

/-- Assembling functions comes past all occurrences in their bodies. -/
theorem watchFunctions_reaches {known table : SymbolTable} {config : Config}
    {functions : List Function} {assembly assembly' : Assembly} {path : Path}
    {found : Occurrence × Ty}
    (hrun : (watchFunctions known config functions assembly).result = .ok assembly')
    (h : bodiesTypeAt table functions path = some found) :
    (watchFunctions known config functions assembly).Reaches path := by
  induction functions generalizing assembly path with
  | nil => simp [bodiesTypeAt] at h
  | cons f rest ih =>
    obtain ⟨path, rfl, h⟩ | ⟨path, rfl, h⟩ := Decoration.of_two h
    · refine Recorded.Reaches.first hrun fun next hnext => Recorded.Reaches.under ?_ 0
      exact Assembly.watchAdd_reaches hnext fun _ hrun => Stmt.watchBody_reaches hrun h
    · refine Recorded.Reaches.second hrun fun next _ hrest => Recorded.Reaches.under ?_ 1
      exact ih hrest h

/-- In a program without a diagnostic all visits agree. -/
theorem watch_sound {p : Program} {config : Config} (htypes : ∀ ty ∈ p.variableTypes, ty.isValid)
    (hclean : p.check.diagnostics = []) : (p.watch p.check.value config).Sound p.typeAt := by
  have h := check_clean hclean
  rw [typeAt_clean hclean]
  refine (Recorded.sound_liftM _).bind fun _ _ => ?_
  refine Recorded.Sound.bind (Recorded.Sound.under
    (h.watchFunctions_sound config htypes (fun _ hf => hf) rfl) rfl) fun assembly hassembly => ?_
  have hready := @Clean.ready_main p h { assembly.resources with frame := {} } rfl
    (returnHeld_watchFunctions rfl hassembly)
  refine Recorded.Sound.bind (Recorded.Sound.under (Assembly.watchAdd_sound ?_) rfl)
    fun _ _ => Recorded.sound_pure _
  exact sound_bind (Stmt.watchBody_sound h.main
    (fun ty hty => htypes ty (List.mem_append_right _ hty)) hready)
    fun _ _ => (silent_liftM _).sound

/-- Assembling a program without a diagnostic comes past all occurrences in it. -/
theorem watch_reaches {p : Program} {config : Config} {listing : Listing} {path : Path}
    {found : Occurrence × Ty} (hclean : p.check.diagnostics = [])
    (hrun : (p.watch p.check.value config).result = .ok listing)
    (h : p.typeAt path = some found) : (p.watch p.check.value config).Reaches path := by
  rw [typeAt_clean hclean] at h
  refine Recorded.Reaches.second hrun fun _ _ hrun => ?_
  obtain ⟨path, rfl, h⟩ | ⟨path, rfl, h⟩ := Decoration.of_two h
  · refine Recorded.Reaches.first hrun fun assembly hassembly => Recorded.Reaches.under ?_ 0
    exact watchFunctions_reaches hassembly h
  · refine Recorded.Reaches.second hrun fun _ _ hrun => ?_
    refine Recorded.Reaches.first hrun fun assembly hassembly => Recorded.Reaches.under ?_ 1
    refine Assembly.watchAdd_reaches hassembly fun _ hrun => ?_
    exact reaches_first hrun fun _ hrun => Stmt.watchBody_reaches hrun h

/-- Checking and lowering agree on types. In a program without a diagnostic, whatever the settings,
each expression and each target that is evaluated or typed on the way to the listing has, in the
frame at that moment, exactly the type that checking found at the same place of the program. This
goes for all of them: the record belongs to the very computation of the listing, and a program that
is assembled has every occurrence in it. -/
theorem types_agree {p : Program} {config : Config}
    (htypes : ∀ ty ∈ p.variableTypes, ty.kind ≠ .invalid) (hclean : p.check.diagnostics = []) :
    (p.watch p.check.value config).result = p.assemble p.check.value config ∧
      (∀ v ∈ (p.watch p.check.value config).visits, ∃ ty,
        p.typeAt v.path = some (v.occurrence, ty) ∧
          v.occurrence.typeIn v.resources.frame = .ok ty) ∧
      ((p.assemble p.check.value config).isOk → ∀ path found, p.typeAt path = some found →
        ∃ v ∈ (p.watch p.check.value config).visits, v.path = path) := by
  refine ⟨p.result_watch _ _, watch_sound (isValid_of_kind htypes) hclean, ?_⟩
  intro hok path found hfound
  rw [← p.result_watch] at hok
  cases hrun : (p.watch p.check.value config).result with
  | error e => simp [hrun, Except.isOk, Except.toBool] at hok
  | ok listing => exact watch_reaches hclean hrun hfound

/-- The inner `n` of the sample hides a pair, and is printed as the integer that it is. -/
theorem types_agree_sumProgram :
    ∃ v ∈ (sumProgram.watch sumProgram.check.value {}).visits,
      v.path = [1, 1, 0, 1, 1, 0] ∧ v.occurrence = .expr (.ident {} "n") ∧
        v.occurrence.typeIn v.resources.frame = .ok .int := by
  have htypes : ∀ ty ∈ sumProgram.variableTypes, ty.kind ≠ .invalid := by decide
  have hclean : sumProgram.check.diagnostics = [] := by decide
  have hok : (sumProgram.assemble sumProgram.check.value {}).isOk := by decide +kernel
  have hfound : sumProgram.typeAt [1, 1, 0, 1, 1, 0] = some (.expr (.ident {} "n"), .int) := by rfl
  obtain ⟨_, hsound, hall⟩ := @types_agree sumProgram {} htypes hclean
  obtain ⟨v, hv, hpath⟩ := hall hok _ _ hfound
  obtain ⟨ty, htype, hframe⟩ := hsound v hv
  rw [hpath, hfound, Option.some.injEq, Prod.mk.injEq] at htype
  obtain ⟨hoccurrence, rfl⟩ := htype
  exact ⟨v, hv, hpath, hoccurrence.symm, hframe⟩

end Program

end ArmCompiler
