import ArmCompiler.Proofs.BasicSteps

/-!
# Hollow Scopes

A scope without slots holds no variable and takes no room on the stack. Code is generated under it
as if it were not there: names are found in the same places, slots are handed out by the same
scopes, and the depth is the same. Main statement: `inScope_inScope`. A scope around a scope that
has no slots of its own adds nothing but two moves of the stack pointer by no bytes.

A lowering step *overlooks* hollow scopes if its code is the same with one of them in the frame,
anywhere under the innermost scope.

## Contents
- §1: frames with a hollow scope
- §2: steps that overlook hollow scopes
- §3: nested scopes
-/

namespace ArmCompiler

open Lower

/-! ## §1 Frames with a hollow scope -/

namespace Frame

/-- Puts a hollow scope on top of the outermost scopes, `below` of them, and under all others. -/
def padScopes (below : Nat) (base : Int) : List Scope → List Scope
  | [] => []
  | scope :: outer =>
    scope :: if outer.length = below then { base, slots := 0 } :: outer
      else padScopes below base outer

/-- The frame with a hollow scope on top of its outermost `below` scopes. -/
def pad (below : Nat) (base : Int) (frame : Frame) : Frame :=
  { frame with scopes := padScopes below base frame.scopes }

variable {below : Nat} {base : Int}

@[simp] theorem depth_pad (frame : Frame) : (frame.pad below base).depth = frame.depth := rfl

@[simp] theorem scopeBytes_pad (frame : Frame) :
    (frame.pad below base).scopeBytes = frame.scopeBytes := by
  obtain ⟨params, scopes, depth⟩ := frame
  cases scopes <;> rfl

/-- There is nothing to be found in a hollow scope. -/
theorem findSome?_padScopes (name : String) (scopes : List Scope) :
    (padScopes below base scopes).findSome? (·.locals.lookup name) =
      scopes.findSome? (·.locals.lookup name) := by
  induction scopes with
  | nil => rfl
  | cons scope outer ih =>
    -- The hollow scope comes after the first one, so a name that is found there is found as before.
    rw [padScopes, List.findSome?_cons, List.findSome?_cons]
    split
    · rfl
    · split
      · rfl
      · exact ih

@[simp] theorem find_pad (frame : Frame) (name : String) :
    (frame.pad below base).find name = frame.find name := by
  have hlocal : (frame.pad below base).local? name = frame.local? name := by
    rw [local?, local?, pad, findSome?_padScopes]
  simp only [find, lookup?, hlocal]
  rfl

/-- The innermost scope hands out its slots as before. -/
theorem declare_pad (frame : Frame) (name : String) (ty : Ty) :
    (frame.pad below base).declare name ty =
      (frame.declare name ty).map fun (offset, frame) => (offset, frame.pad below base) := by
  obtain ⟨params, scopes, depth⟩ := frame
  cases scopes with
  | nil => rfl
  | cons scope outer =>
    by_cases hroom : (scope.locals.length : Int) < scope.slots <;>
      simp [declare, pad, padScopes, hroom, offset, Except.map]

theorem openScope_pad {frame : Frame} (h : below < frame.scopes.length) (slots : Int) :
    (frame.pad below base).openScope slots = (frame.openScope slots).pad below base := by
  simp only [openScope, pad, padScopes]
  rw [if_neg (by omega)]

theorem closeScope_pad {frame : Frame} (h : below + 1 < frame.scopes.length) :
    (frame.pad below base).closeScope = frame.closeScope.pad below base := by
  -- More scopes than one lie above the hollow one, so closing the innermost leaves it in its place.
  have hscopes : (padScopes below base frame.scopes).tail =
      padScopes below base frame.scopes.tail := by
    cases hcases : frame.scopes with
    | nil => rfl
    | cons scope outer =>
      have hlength : outer.length ≠ below := by
        simp only [hcases, List.length_cons] at h
        omega
      simp only [padScopes, List.tail_cons, if_neg hlength]
  simp only [closeScope, scopeBytes_pad]
  simp only [pad, hscopes]

/-- Opening a hollow scope first puts it under the scope that is opened next. -/
theorem openScope_openScope (frame : Frame) (slots : Int) :
    (frame.openScope 0).openScope slots =
      (frame.openScope slots).pad frame.scopes.length frame.depth := by
  simp [openScope, pad, padScopes]

/-- Above nothing but the innermost scope a hollow scope is the next one to be closed. -/
theorem closeScope_closeScope_pad {frame : Frame} (h : frame.scopes.length = below + 1)
    (base : Int) :
    (frame.pad below base).closeScope.scopeBytes = 0 ∧
      (frame.pad below base).closeScope.closeScope = frame.closeScope := by
  obtain ⟨params, scopes, depth⟩ := frame
  cases scopes with
  | nil => simp at h
  | cons scope outer =>
    have hlength : outer.length = below := by simpa using h
    simp [closeScope, pad, padScopes, hlength, scopeBytes]

end Frame

/-- The resources with a hollow scope in the frame. -/
def Resources.pad (below : Nat) (base : Int) (resources : Resources) : Resources :=
  { resources with frame := resources.frame.pad below base }

/-- What a step leaves behind, with a hollow scope in the frame. -/
def Lowered.pad {α : Type} (below : Nat) (base : Int) (out : Lowered α) : Lowered α :=
  { out with resources := out.resources.pad below base }

/-! ## §2 Steps that overlook hollow scopes -/

namespace Lower

variable {α β : Type} {below : Nat} {base : Int}

/-- A step that does the same with a hollow scope in the frame, and leaves open as many scopes as it
finds. -/
structure Overlooks (below : Nat) (base : Int) (step : Lower α) : Prop where
  padded : ∀ {start : Resources}, below < start.frame.scopes.length →
    step.run (start.pad below base) = (step.run start).map (·.pad below base)
  height : ∀ {start : Resources} {out : Lowered α}, step.run start = .ok out →
    out.resources.frame.scopes.length = start.frame.scopes.length

namespace Overlooks

theorem bind {step : Lower α} {next : α → Lower β} (hstep : step.Overlooks below base)
    (hnext : ∀ a, (next a).Overlooks below base) : (step >>= next).Overlooks below base where
  padded := by
    intro start habove
    rw [run_bind, run_bind, hstep.padded habove]
    cases hfirst : step.run start with
    | error e => rfl
    | ok first =>
      -- The first step leaves as many scopes open, so the hollow one is still under the innermost.
      have habove' : below < first.resources.frame.scopes.length := hstep.height hfirst ▸ habove
      have hsecond := (hnext first.value).padded habove'
      simp only [Except.map, Lowered.pad] at hsecond ⊢
      rw [hsecond]
      cases (next first.value).run first.resources <;> rfl
  height := by
    intro start out hrun
    obtain ⟨first, second, hfirst, hsecond, rfl⟩ := run_bind_eq_ok.1 hrun
    exact ((hnext first.value).height hsecond).trans (hstep.height hfirst)

/-- A step that cannot fail and does not look at the scopes. -/
theorem always {step : Lower α} (out : Resources → Lowered α)
    (hrun : ∀ start, step.run start = .ok (out start))
    (hpadded : ∀ start, out (start.pad below base) = (out start).pad below base)
    (hheight : ∀ start, (out start).resources.frame.scopes.length = start.frame.scopes.length) :
    step.Overlooks below base where
  padded := by
    intro start _
    rw [hrun, hrun, hpadded]
    rfl
  height := by
    intro start result h
    rw [hrun, Except.ok.injEq] at h
    exact h ▸ hheight start

/-- A variable is found, or not, with a hollow scope in the frame as without it. -/
theorem lookup (name : String) : (Lower.lookup name).Overlooks below base where
  padded := by
    intro start _
    have hfind : (start.pad below base).frame.find name = start.frame.find name :=
      start.frame.find_pad name
    rw [run_lookup, run_lookup, hfind]
    cases start.frame.find name <;> rfl
  height := by
    intro start out hrun
    rw [run_lookup, run_ofExcept_eq_ok] at hrun
    obtain ⟨found, _, rfl⟩ := hrun
    rfl

theorem acquire : Lower.acquire.Overlooks below base where
  padded := by
    intro start _
    simp only [run, Lower.acquire, Resources.pad]
    cases start.pool.acquire <;> rfl
  height := by
    intro start out hrun
    obtain ⟨r, _, rfl⟩ := run_acquire_eq_ok.1 hrun
    rfl

theorem declare (name : String) (ty : Ty) : (Lower.declare name ty).Overlooks below base where
  padded := by
    intro start _
    simp only [run, Lower.declare, Resources.pad, Frame.declare_pad]
    cases start.frame.declare name ty <;> rfl
  height := by
    intro start out hrun
    obtain ⟨offset, frame, hdeclare, rfl⟩ := run_declare_eq_ok.1 hrun
    obtain ⟨scope, outer, hscopes, _, _, rfl⟩ := Frame.declare_eq_ok.1 hdeclare
    simp [hscopes]

theorem inScope {slots : Nat} {step : Lower Unit} (hstep : step.Overlooks below base) :
    (Lower.inScope slots step).Overlooks below base where
  padded := by
    intro start habove
    have hopen : ({ start.pad below base with
        frame := (start.pad below base).frame.openScope slots } : Resources) =
        Resources.pad below base { start with frame := start.frame.openScope slots } := by
      simp only [Resources.pad, Frame.openScope_pad habove]
    have habove' : below < (start.frame.openScope slots).scopes.length := by
      simp only [Frame.openScope, List.length_cons]
      omega
    rw [run_inScope, run_inScope, hopen, hstep.padded habove']
    cases hinner : step.run { start with frame := start.frame.openScope slots } with
    | error e => rfl
    | ok inner =>
      have hheight : inner.resources.frame.scopes.length = start.frame.scopes.length + 1 :=
        hstep.height hinner
      simp only [Except.map, closed, Lowered.pad, Resources.pad, Frame.scopeBytes_pad,
        Frame.closeScope_pad (show below + 1 < inner.resources.frame.scopes.length by omega)]
  height := by
    intro start out hrun
    obtain ⟨inner, hinner, rfl⟩ := run_inScope_eq_ok.1 hrun
    have hheight := hstep.height hinner
    simp only [Frame.openScope, List.length_cons] at hheight
    simp [Frame.closeScope, hheight]

end Overlooks

/-- Whatever is made of basic steps overlooks hollow scopes. -/
theorem Parallel.overlooks {ρ : String → String} {step step' : Lower α}
    (h : step.Parallel ρ step') : step.Overlooks below base := by
  induction h with
  | bind _ _ ih ihNext => exact ih.bind ihNext
  | fail _ => exact ⟨fun _ => rfl, fun hrun => by cases hrun⟩
  | acquire => exact .acquire
  | lookup name => exact .lookup name
  | declare name ty => exact .declare name ty
  | inScope slots _ ih => exact ih.inScope
  | pure | emitAll | modifyPool | freshLabel | push | unpush | unwind =>
    exact .always _ (fun _ => rfl) (fun _ => rfl) fun _ => rfl

end Lower

/-- The code of a statement is the same under a hollow scope. -/
theorem Stmt.lower_overlooks (table : SymbolTable) (s : Stmt) (below : Nat) (base : Int) :
    (s.lower table).Overlooks below base :=
  (s.lower_parallel (ρ := id) table).overlooks

/-! ## §3 Nested scopes -/

/-- Code between two moves of the stack pointer by no bytes. -/
def Lowered.idling (out : Lowered Unit) : Lowered Unit :=
  { out with code := .reserve 0 :: (out.code ++ [.unreserve 0]) }

/-- A scope without slots around another scope makes no difference but for idle moves of the stack
pointer. -/
theorem Lower.inScope_inScope (slots : Nat) {step : Lower Unit}
    (hstep : ∀ below base, step.Overlooks below base) (start : Resources) :
    (inScope 0 (inScope slots step)).run start =
      ((inScope slots step).run start).map Lowered.idling := by
  let opened : Resources := { start with frame := start.frame.openScope slots }
  -- The hollow scope is opened first, and so it lies right under the scope that the step runs in.
  have hopen :
      ({ start with frame := (start.frame.openScope (0 : Nat)).openScope slots } : Resources) =
        opened.pad start.frame.scopes.length start.frame.depth := by
    rw [Int.natCast_zero, Frame.openScope_openScope]
    rfl
  have habove : start.frame.scopes.length < opened.frame.scopes.length := by
    simp [opened, Frame.openScope]
  rw [run_inScope, run_inScope, run_inScope, hopen, (hstep _ _).padded habove]
  cases hinner : step.run opened with
  | error e => rfl
  | ok inner =>
    have hheight : inner.resources.frame.scopes.length = start.frame.scopes.length + 1 :=
      (hstep 0 0).height hinner
    obtain ⟨hbytes, hclose⟩ := Frame.closeScope_closeScope_pad hheight start.frame.depth
    simp only [Except.map, closed, Lowered.pad, Resources.pad, Lowered.idling, hbytes, hclose,
      Frame.scopeBytes_pad, Nat.mul_zero, Int.toNat_zero]

end ArmCompiler
