import ArmCompiler.Proofs.OwnedSlots

/-!
# Calls of the Source in the Code

The calls of the source are found in the code by following how it is put together: each of them
becomes the pushes of its arguments, the call, and the release of their slots, at the depth of the
frame that it is made from. Along the way every touch next to the stack pointer is accounted for.
Main statement: `Stmt.lower_charts`.

## Contents
- §1: calls of the source
- §2: calls in marked code
- §3: straight code and calls
- §4: lowering checked statements
-/

namespace ArmCompiler

open Instruction Lower Report

/-! ## §1 Calls of the source -/

/-- A call of the source, with the frame it is made from. -/
structure CallSite where
  frame : Frame
  name : String
  args : List Expr

def Rhs.callSites (frame : Frame) : Rhs → List CallSite
  | .call name args => [{ frame, name, args }]
  | .expr _ | .array _ | .newPair _ _ | .side _ _ => []

namespace Stmt

/-- The calls of a statement in the order of their code, each with the variables in sight there. -/
def callSites (frame : Frame) : Stmt → List CallSite
  | .declare _ _ _ rhs | .assign _ _ rhs => rhs.callSites frame
  | .ifThen _ _ body | .whileDo _ _ body | .doWhile _ body _ | .block _ body =>
    body.callSites (frame.openScope body.slots)
  | .ifElse _ _ thenArm elseArm =>
    thenArm.callSites (frame.openScope thenArm.slots) ++
      elseArm.callSites (frame.openScope elseArm.slots)
  | .forLoop _ init _ step body =>
    let inner := init.frameAfter (frame.openScope init.slots)
    init.callSites (frame.openScope init.slots) ++
      (body.callSites (inner.openScope body.slots) ++ step.callSites inner)
  | .seq _ first second => first.callSites frame ++ second.callSites (first.frameAfter frame)
  | .skip .. | .increment .. | .read .. | .free .. | .ret .. | .exit .. | .print ..
  | .println .. => []

end Stmt

/-! ## §2 Calls in marked code -/

/-- The code of a call: the pushes of its arguments, the call at a depth, and the release of their
slots. The pushing starts at the depth of the frame that the call is made from, goes straight on,
and touches what it should. It is what is generated for the call in that frame, and the frame is the
same afterwards. -/
structure CallSite.Passes (known : SymbolTable) (limit : Nat) (message : String → String)
    (site : CallSite) (pushes : List (Int × Instruction)) (depth : Int)
    (release : List (Int × Instruction)) : Prop where
  arguments : ∃ signature, known.function? site.name = some signature ∧
    site.args.length = signature.params.length ∧
    ∀ sp, walk sp (pushes.map (·.2)) = some (sp - slotBytes * signature.params.length,
      argumentTouches site.frame sp signature.params site.args)
  start : ∃ i, (pushes ++ [(depth, call (functionLabel site.name))])[0]? =
    some (site.frame.depth, i)
  released : release.map (·.2) = adjustStack .add limit (slotBytes * site.args.length)
  generated : ∃ resources out r, resources.frame = site.frame ∧
    (callFunction known site.name site.args).run resources = .ok out ∧
    out.resources.frame = resources.frame ∧
    out.code.flatMap (·.plain limit message) = pushes.map (·.2) ++
      call (functionLabel site.name) :: (release.map (·.2) ++ [move r .r0])
  noCall : ∀ m ∈ pushes ++ release, ∀ name, m.2 ≠ call (functionLabel name)

/-- Marked code whose calls are those of a list, in order. -/
inductive Sited (known : SymbolTable) (limit : Nat) (message : String → String) :
    List CallSite → List (Int × Instruction) → Prop where
  | nil : Sited known limit message [] []
  | step {sites : List CallSite} {m : Int × Instruction} {rest : List (Int × Instruction)} :
      (∀ name, m.2 ≠ call (functionLabel name)) → Sited known limit message sites rest →
      Sited known limit message sites (m :: rest)
  | call {site : CallSite} {sites : List CallSite} {pushes release rest : List (Int × Instruction)}
      {depth : Int} :
      site.Passes known limit message pushes depth release → Sited known limit message sites rest →
      Sited known limit message (site :: sites)
        (pushes ++ (depth, call (functionLabel site.name)) :: (release ++ rest))

/-- Something that is not in the first of two lists is found in the second. -/
theorem exists_of_append_eq {α : Type} {a b before after : List α} {x : α} (hx : x ∉ a)
    (h : a ++ b = before ++ x :: after) :
    ∃ before', before = a ++ before' ∧ b = before' ++ x :: after := by
  rcases List.append_eq_append_iff.1 h with ⟨middle, hbefore, hb⟩ | ⟨middle, ha, hrest⟩
  · exact ⟨middle, hbefore, hb⟩
  · cases middle with
    | nil => exact ⟨[], by simpa using ha.symm, by simpa using hrest.symm⟩
    | cons y ys =>
      obtain ⟨rfl, _⟩ := List.cons.inj hrest
      exact absurd (by simp [ha]) hx

namespace Sited

variable {known : SymbolTable} {limit : Nat} {message : String → String}
  {sites sites' : List CallSite} {a b : List (Int × Instruction)}

theorem append (ha : Sited known limit message sites a) (hb : Sited known limit message sites' b) :
    Sited known limit message (sites ++ sites') (a ++ b) := by
  induction ha with
  | nil => exact hb
  | step hstep _ ih => exact .step hstep ih
  | call hpasses _ ih => simpa using Sited.call hpasses ih

theorem of_noCall (h : ∀ m ∈ a, ∀ name, m.2 ≠ Instruction.call (functionLabel name)) :
    Sited known limit message [] a := by
  induction a with
  | nil => exact .nil
  | cons m rest ih =>
    exact .step (h m (by simp)) (ih fun m hm => h m (List.mem_cons_of_mem _ hm))

/-- A call in such code is that of a call of the source. -/
theorem exists_site (h : Sited known limit message sites a)
    {before after : List (Int × Instruction)} {depth : Int} {name : String}
    (hsplit : a = before ++ (depth, Instruction.call (functionLabel name)) :: after) :
    ∃ site ∈ sites, site.name = name ∧ ∃ lead pushes release tail, before = lead ++ pushes ∧
      after = release ++ tail ∧ site.Passes known limit message pushes depth release := by
  induction h generalizing before with
  | nil => simp at hsplit
  | @step sites m rest hstep _ ih =>
    cases before with
    | nil =>
      obtain ⟨rfl, _⟩ := List.cons.inj hsplit
      exact absurd rfl (hstep name)
    | cons m' before =>
      obtain ⟨rfl, hrest⟩ := List.cons.inj hsplit
      obtain ⟨site, hsite, hname, lead, pushes, release, tail, rfl, rfl, hpasses⟩ := ih hrest
      exact ⟨site, hsite, hname, m :: lead, pushes, release, tail, rfl, rfl, hpasses⟩
  | @call site sites pushes release rest depth' hpasses _ ih =>
    have hother {part : List (Int × Instruction)} (hpart : part ⊆ pushes ++ release) :
        (depth, Instruction.call (functionLabel name)) ∉ part :=
      fun hmem => hpasses.noCall _ (hpart hmem) name rfl
    obtain ⟨middle, rfl, hrest⟩ := exists_of_append_eq (hother (List.subset_append_left _ _)) hsplit
    cases middle with
    | nil =>
      obtain ⟨heq, rfl⟩ := List.cons.inj hrest
      obtain ⟨rfl, hcall⟩ := Prod.mk.inj heq
      have hlabel := (Instruction.branch.inj hcall).2.2
      exact ⟨site, by simp, Program.functionLabel_injective hlabel, [], pushes, release, rest,
        by simp, rfl, hpasses⟩
    | cons m middle =>
      -- The call is not among the instructions that release the slots, so it comes after them.
      obtain ⟨_, hlater⟩ := List.cons.inj hrest
      obtain ⟨before', rfl, hfound⟩ :=
        exists_of_append_eq (hother (List.subset_append_right _ _)) hlater
      obtain ⟨site', hsite, hname, lead, pushes', release', tail, rfl, rfl, hpasses'⟩ := ih hfound
      exact ⟨site', List.mem_cons_of_mem _ hsite, hname, pushes ++ m :: (release ++ lead), pushes',
        release', tail, by simp, rfl, hpasses'⟩

theorem noCall (h : Sited known limit message [] a) :
    ∀ m ∈ a, ∀ name, m.2 ≠ Instruction.call (functionLabel name) := by
  rintro ⟨depth, i⟩ hm name rfl
  obtain ⟨before, after, hsplit⟩ := List.append_of_mem hm
  obtain ⟨site, hsite, _⟩ := h.exists_site hsplit
  cases hsite

end Sited

/-- An instruction at a depth touches only what is permitted, by the distance from the saved link
register. -/
def Permitted (P : Touch → Int → Prop) (m : Int × Instruction) : Prop :=
  ∀ {touch offset move}, m.2.touch? = some (touch, offset) → m.2.stackMove? = some move →
    P touch (offset - (m.1 + move))

/-- Marked code whose calls are those of a list and which touches only what is permitted. -/
def Chart (P : Touch → Int → Prop) (known : SymbolTable) (limit : Nat)
    (message : String → String) (sites : List CallSite) (marked : List (Int × Instruction)) :
    Prop :=
  (∀ m ∈ marked, Permitted P m) ∧ Sited known limit message sites marked

section Chart

variable {P : Touch → Int → Prop} {known : SymbolTable} {limit : Nat} {message : String → String}

theorem Instruction.glue_plain {i : Instruction} (h : i.isGlue) :
    i.touch? = none ∧ ∀ name, i ≠ call (functionLabel name) := by
  unfold isGlue at h
  split at h
  · exact ⟨rfl, fun _ h => by cases h⟩
  · exact ⟨rfl, fun _ h => by cases h⟩
  · exact ⟨rfl, fun _ h => by cases h⟩
  · rename_i op _ _
    exact ⟨by cases op <;> rfl, fun _ h => by cases h⟩
  · cases h

theorem compositional_chart : Compositional (Chart P known limit message) where
  glue := by
    intro marked hglue
    refine ⟨fun m hm => ?_, .of_noCall fun m hm => (glue_plain (hglue m hm)).2⟩
    intro touch offset move htouch _
    simp [(glue_plain (hglue m hm)).1] at htouch
  append := by
    rintro xs ys a b ⟨hpermitted, hsited⟩ ⟨hpermitted', hsited'⟩
    refine ⟨fun m hm => ?_, hsited.append hsited'⟩
    rcases List.mem_append.1 hm with hm | hm
    · exact hpermitted m hm
    · exact hpermitted' m hm

end Chart

/-! ## §3 Straight code and calls -/

section Leaves

variable {P : Touch → Int → Prop} {known : SymbolTable} {limit : Nat} {message : String → String}
  {depth : Int}

theorem Straight.charted {p : Pseudo} (h : Straight Harmless (InFrame depth) p) (hd : 0 ≤ depth)
    (hP : ∀ touched ∈ p.touch?.toList, P touched.1 (touched.2 - depth)) (depths : Nat → Int) :
    Charted (Chart P known limit message) depths depth [] (p.plain limit message) depth := by
  obtain ⟨i, hplain, hstraight, htouch, hcall⟩ := h.plain_eq limit message
  obtain ⟨marked, hmarked, hflow⟩ : Flows depths depth (p.plain limit message) depth :=
    h.flows limit message hd
  refine ⟨marked, hmarked, hflow, ?_⟩
  rw [hplain, List.map_eq_singleton_iff] at hmarked
  obtain ⟨⟨a, j⟩, rfl, rfl⟩ := hmarked
  obtain ⟨_, hhead⟩ := hflow.head j
  -- A straight step is one instruction that leaves the stack pointer where it is.
  obtain rfl : a = depth := by simpa using congrArg (Option.map Prod.fst) hhead
  refine ⟨?_, .of_noCall (by simpa using hcall)⟩
  rintro m hm touch offset move htouched hmove
  obtain rfl := List.mem_singleton.1 hm
  obtain rfl : 0 = move := Option.some.inj ((stackMove?_of_straight hstraight).symm.trans hmove)
  simpa using hP (touch, offset) (by simpa using htouch.symm.trans htouched)

theorem StraightCode.steady {code : List Pseudo} (h : StraightCode Harmless (InFrame depth) code)
    (hd : 0 ≤ depth) (hP : ∀ touched ∈ touchesOf code, P touched.1 (touched.2 - depth)) :
    Steady (Chart P known limit message) limit message depth [] code := by
  intro depths
  induction code with
  | nil => exact ⟨[], rfl, .nil, by simp, .nil⟩
  | cons p rest ih =>
    rw [StraightCode.cons_iff] at h
    rw [touchesOf_cons] at hP
    rw [List.flatMap_cons]
    refine Charted.nil_append compositional_chart ?_ (ih h.2 fun touched ht => ?_)
    · exact h.1.charted hd (fun touched ht => hP touched (List.mem_append_left _ ht)) depths
    · exact hP touched (List.mem_append_right _ ht)

section Arguments

variable {resources : Resources} {args : List Expr}

/-- Pushing a register takes a new slot below everything else. -/
theorem charted_push (width : Width) (r : Register) (hd : 0 ≤ depth)
    (hown : ∀ touch place, place ≤ -(slotBytes : Int) → P touch place) (depths : Nat → Int) :
    Charted (Chart P known limit message) depths depth []
      [.str width r (.preIndexed .sp (-(slotBytes : Int)))] (depth + slotBytes) := by
  refine ⟨[(_, _)], rfl, .next ?_ rfl .nil, ?_, .of_noCall ?_⟩
  · refine ⟨by omega, fun _ h => (by cases h), fun _ _ h => (by cases h), ?_⟩
    rintro move offset ⟨⟩ ⟨⟩
    exact .inl ⟨Int.le_refl 0, by omega⟩
  · rintro m hm touch offset move htouched hmove
    obtain rfl := List.mem_singleton.1 hm
    cases htouched
    cases hmove
    exact hown _ _ (by simp only; omega)
  · rintro m hm name
    obtain rfl := List.mem_singleton.1 hm
    exact fun h => by cases h

/-- Pushing arguments touches what they read, and the new slots below everything else. -/
theorem charted_pushArgs {params : List Param} {out : Lowered Unit}
    (h : (pushArgs params args).run resources = .ok out)
    (hW : Writable resources.pool Harmless) (hlaid : resources.frame.Laid)
    (hP : ∀ touched ∈ readsAll resources.frame args,
      P touched.1 (touched.2 - resources.frame.depth))
    (hown : ∀ touch place, place ≤ -(slotBytes : Int) → P touch place) (depths : Nat → Int) :
    Charted (Chart P known limit message) depths resources.frame.depth []
      (out.code.flatMap (·.plain limit message))
      (resources.frame.depth + (slotBytes * args.length : Nat)) := by
  induction args generalizing params out with
  | nil =>
    simp only [pushArgs, run_pure, Except.ok.injEq] at h
    subst h
    exact ⟨[], rfl, by simpa using .nil, by simp, .nil⟩
  | cons arg args ih =>
    simp only [pushArgs_cons, run_bind_eq_ok, run_emit, run_release, run_modifyFrame,
      Except.ok.injEq] at h
    obtain ⟨others, _, hothers, ⟨ty, _, hty, ⟨value, _, hvalue, ⟨_, _, rfl, ⟨_, _, rfl, rfl, rfl⟩,
      rfl⟩, rfl⟩, rfl⟩, rfl⟩ := h
    simp only [readsAll, List.mem_append] at hP
    have hbefore := ih hothers fun touched ht => hP touched (.inr ht)
    obtain ⟨htyRes, htyCode⟩ := argType_eq_ok hty
    rw [htyRes, (pushArgs_eq_ok hothers hW).1] at hvalue
    have hpushed : (resources.frame.pushTemp (slotBytes * args.length : Nat)).Laid :=
      hlaid.pushTemp (by omega)
    have harg : Steady (Chart P known limit message) limit message
        (resources.frame.depth + (slotBytes * args.length : Nat)) [] value.code := by
      refine ((arg.lower_fetches hvalue hW).code.inFrame hpushed).steady hpushed.depth_nonneg ?_
      rw [arg.lower_touches hvalue, Expr.reads_pushTemp]
      simp only [List.mem_map]
      rintro _ ⟨⟨touch, offset⟩, hread, rfl⟩
      -- The pushed bytes count for the variable as much as for the depth.
      have hsame := hP (touch, offset) (.inl hread)
      have hplace : offset + (slotBytes * args.length : Nat) -
          (resources.frame.depth + (slotBytes * args.length : Nat)) =
          offset - resources.frame.depth := by omega
      simpa [Frame.pushTemp, hplace] using hsame
    have hd : 0 ≤ resources.frame.depth + (slotBytes * args.length : Nat) := hpushed.depth_nonneg
    have hpush : Charted (Chart P known limit message) depths _ [] [.str _ _ _] _ :=
      charted_push ty.value.width value.value hd hown depths
    have hnext : resources.frame.depth + (slotBytes * (arg :: args).length : Nat) =
        resources.frame.depth + (slotBytes * args.length : Nat) + slotBytes := by
      rw [List.length_cons, Nat.mul_add_one, Int.natCast_add, Int.add_assoc]
    rw [hnext]
    have hall := hbefore.nil_append compositional_chart
      ((harg depths).nil_append compositional_chart hpush)
    simpa [htyCode, Pseudo.plain] using hall

/-- Pushes, a call and the release of the slots make up the call of a site. -/
theorem charted_call {site : CallSite} {pushes release : List (Int × Instruction)} {e : Int}
    {depths : Nat → Int} (hpasses : site.Passes known limit message pushes e release)
    (hpushes : Flow depths depth pushes e) (hpermitted : ∀ m ∈ pushes, Permitted P m)
    (he : 0 ≤ e) (hrelease : Flow depths e release depth) (hglue : ∀ m ∈ release, m.2.isGlue) :
    Charted (Chart P known limit message) depths depth [site]
      (pushes.map (·.2) ++ call (functionLabel site.name) :: release.map (·.2)) depth := by
  refine ⟨pushes ++ (e, call (functionLabel site.name)) :: release, by simp,
    hpushes.append (.next ?_ rfl (by simpa using hrelease)), ?_, ?_⟩
  · exact .of_plain he rfl (fun _ _ h => by cases h) rfl
  · intro m hm touch offset move htouched hmove
    rcases List.mem_append.1 hm with hm | hm
    · exact hpermitted m hm htouched hmove
    · rcases List.mem_cons.1 hm with rfl | hm
      · cases htouched
      · simp [(glue_plain (hglue m hm)).1] at htouched
  · simpa using Sited.call hpasses .nil

/-- The code of a call passes its arguments. -/
theorem steady_callFunction {name : String} {out : Lowered Register}
    (h : (callFunction known name args).run resources = .ok out)
    (hcount : ∀ signature, known.function? name = some signature →
      args.length = signature.params.length)
    (hW : Writable resources.pool Harmless) (hlaid : resources.frame.Laid)
    (hreturn : resources.pool.returnHeld = false)
    (hP : ∀ touched ∈ readsAll resources.frame args,
      P touched.1 (touched.2 - resources.frame.depth))
    (hown : ∀ touch place, place ≤ -(slotBytes : Int) → P touch place) :
    Steady (Chart P known limit message) limit message resources.frame.depth
      [{ frame := resources.frame, name, args }] out.code := by
  obtain ⟨signature, pushed, hfun, hpushed, _, _, hcode⟩ := callFunction_eq_ok h
  have hbrings := callFunction_brings h hW hlaid hreturn
  have hd : 0 ≤ resources.frame.depth := hlaid.depth_nonneg
  have hlength := hcount signature hfun
  intro depths
  have hcharted : Charted (Chart P known limit message) depths resources.frame.depth []
      (pushed.code.flatMap (·.plain limit message))
      (resources.frame.depth + (slotBytes * args.length : Nat)) :=
    charted_pushArgs hpushed hW hlaid hP hown depths
  obtain ⟨pushes, hpushes, hflow, hpermitted, hsited⟩ := hcharted
  obtain ⟨release, hrelease, hflow'⟩ :
      Flows depths (resources.frame.depth + (slotBytes * args.length : Nat))
        (adjustStack .add limit (slotBytes * args.length)) resources.frame.depth :=
    Flows.unreserve limit _ hd
  have hglue : ∀ m ∈ release, m.2.isGlue := by
    intro m hm
    exact isGlue_adjustStack _ (hrelease ▸ List.mem_map_of_mem hm)
  let site : CallSite := { frame := resources.frame, name, args }
  have hpasses : site.Passes known limit message pushes
      (resources.frame.depth + (slotBytes * args.length : Nat)) release := by
    refine ⟨⟨signature, hfun, hlength, fun sp => ?_⟩, hflow.head _, hrelease, ?_, ?_⟩
    · rw [hpushes]
      exact walk_pushArgs hpushed hlength hW limit message sp
    · refine ⟨resources, out, out.value, rfl, h, by rw [hbrings.holds]; rfl, ?_⟩
      simp [site, hcode, hpushes, hrelease, Pseudo.plain]
    · intro m hm
      rcases List.mem_append.1 hm with hm | hm
      · exact hsited.noCall m hm
      · exact (glue_plain (hglue m hm)).2
  -- The result is moved once the stack pointer is back at the depth of the frame.
  have hblock := charted_call hpasses hflow hpermitted (by omega) hflow' hglue
  have hmove : StraightCode Harmless (InFrame resources.frame.depth)
      [.instr (move out.value .r0)] := by
    simpa using .mov (hW.free _ hbrings.free)
  have htouches : touchesOf [.instr (move out.value .r0)] = [] := rfl
  have hafter : Steady (Chart P known limit message) limit message resources.frame.depth []
      [.instr (move out.value .r0)] := hmove.steady hd (by simp [htouches])
  have hall := hblock.append_nil compositional_chart (hafter depths)
  simpa [site, hcode, hpushes, hrelease, Pseudo.plain] using hall

end Arguments

end Leaves

/-! ## §4 Lowering checked statements -/

/-- What lowering a checked statement of a function starts from: a frame that has the function's
parameters, and variables with the types that the table gives them. -/
structure Grounded (known table : SymbolTable) (params : List Param) (resources : Resources) :
    Prop where
  functions : known.functions = table.functions
  types : SameTypes table resources.frame
  params : resources.frame.params = (Frame.ofParams params).params
  laid : resources.frame.Laid
  writable : Writable resources.pool Harmless
  returnFree : resources.pool.returnHeld = false

namespace Grounded

variable {known table : SymbolTable} {params : List Param} {resources : Resources}

theorem withLabel (h : Grounded known table params resources) (n : Nat) :
    Grounded known table params { resources with nextLabel := n } :=
  ⟨h.functions, h.types, h.params, h.laid, h.writable, h.returnFree⟩

theorem openScope (h : Grounded known table params resources) (slots : Nat) :
    Grounded known table.openScope params
      { resources with frame := resources.frame.openScope slots } :=
  ⟨h.functions, h.types.openScope slots, h.params, h.laid.openScope slots, h.writable, h.returnFree⟩

theorem balanced (h : Grounded known table params resources) {s : Stmt} {out : Lowered Unit}
    (hrun : (s.lower known).run resources = .ok out) :
    Balanced Harmless known.Knows resources s.slots out :=
  s.lower_balanced hrun h.writable h.laid h.returnFree

/-- Lowering a checked statement keeps the types of table and frame the same. -/
theorem sameTypes {s : Stmt} {out : Lowered Unit} (h : Grounded known table params resources)
    (hrun : (s.lower known).run resources = .ok out) (hclean : (s.check table).diagnostics = []) :
    SameTypes (s.check table).value.2 out.resources.frame := by
  -- Only declarations and sequences of them change the table or the frame.
  have unchanged {s : Stmt} {table : SymbolTable} {resources : Resources} {out : Lowered Unit}
      (h : Grounded known table params resources) (hrun : (s.lower known).run resources = .ok out)
      (hslots : s.slots = 0) : SameTypes (s.check table).value.2 out.resources.frame := by
    have hbalanced := h.balanced hrun
    rw [hslots] at hbalanced
    rw [Stmt.check_of_slots hslots, hbalanced.frame.eq_of_zero]
    exact h.types
  induction s generalizing table resources out with
  | declare span ty name rhs =>
    obtain ⟨_, hadd⟩ := Stmt.check_declare_clean hclean
    obtain ⟨value, offset, frame, hvalue, hdeclare, rfl⟩ := Stmt.lower_declare_eq_ok hrun
    rw [(Rhs.lower_brings hvalue h.writable h.laid h.returnFree).holds] at hdeclare
    exact h.types.declare hadd hdeclare
  | seq span first second ihFirst ihSecond =>
    obtain ⟨hfirst, hsecond, hvalue⟩ := Stmt.check_seq_clean hclean
    obtain ⟨a, b, ha, hb, rfl⟩ := Stmt.lower_seq_eq_ok hrun
    have hbalanced := h.balanced ha
    have hmid : Grounded known (first.check table).value.2 params a.resources :=
      ⟨h.functions.trans (first.check_extends table).functions.symm, ihFirst h ha hfirst,
        hbalanced.frame.keeps.2.1.trans h.params, hbalanced.laid h.laid,
        hbalanced.pool ▸ h.writable, hbalanced.pool ▸ h.returnFree⟩
    have hend := ihSecond hmid hb hsecond
    rw [hvalue]
    exact hend
  | skip | assign | increment | read | free | ret | exit | print | println | ifThen | ifElse
  | whileDo | doWhile | forLoop | block => exact unchanged h hrun rfl

/-- A checked statement leaves behind what the next one starts from. -/
theorem lower (h : Grounded known table params resources) {s : Stmt} {out : Lowered Unit}
    (hrun : (s.lower known).run resources = .ok out) (hclean : (s.check table).diagnostics = []) :
    Grounded known (s.check table).value.2 params out.resources := by
  have hbalanced := h.balanced hrun
  exact ⟨h.functions.trans (s.check_extends table).functions.symm, h.sameTypes hrun hclean,
    hbalanced.frame.keeps.2.1.trans h.params, hbalanced.laid h.laid,
    hbalanced.pool ▸ h.writable, hbalanced.pool ▸ h.returnFree⟩

theorem inScope_balanced (h : Grounded known table params resources) {s : Stmt} {out : Lowered Unit}
    (hrun : (Lower.inScope s.slots (s.lower known)).run resources = .ok out) :
    Balanced Harmless known.Knows resources 0 out :=
  Balanced.inScope hrun fun hinner => (h.openScope s.slots).balanced hinner

section Steady

variable {bare : List Frame.Local} {span : Span} (limit : Nat) (message : String → String)

/-- Straight code that touches variables in sight. -/
theorem steady (h : Grounded known table params resources) {code : List Pseudo}
    (hcode : StraightCode Harmless resources.frame.Shows code)
    (howned : ∀ touched ∈ touchesOf code, resources.frame.Owns bare touched) :
    Steady (Chart (Accounted params bare) known limit message) limit message resources.frame.depth
      [] code :=
  (hcode.inFrame h.laid).steady h.laid.depth_nonneg fun touched ht =>
    (howned touched ht).accounted h.laid h.params

theorem steady_testCondition (h : Grounded known table params resources) {cond : Expr} {value : Int}
    {out : Lowered Unit} (hrun : (testCondition cond value).run resources = .ok out)
    (hclean : (checkCondition table cond).diagnostics = [])
    (hbare : cond.bareLocals resources.frame ⊆ bare) :
    Steady (Chart (Accounted params bare) known limit message) limit message resources.frame.depth
      [] out.code := by
  simp only [checkCondition, diagnostics_bind, List.append_eq_nil_iff] at hclean
  apply h.steady limit message (testCondition_quiet hrun h.writable).code
  rw [touches_testCondition hrun]
  exact cond.reads_owned h.types hclean.1 hbare

/-- The calls of a checked right side have as many arguments as the function has parameters. -/
theorem steady_rhs (h : Grounded known table params resources) {rhs : Rhs} {ty : Ty}
    {out : Lowered Register} (hrun : (rhs.lower known ty).run resources = .ok out)
    (hclean : (rhs.check table span).diagnostics = [])
    (hbare : rhs.bareLocals resources.frame ⊆ bare) :
    Steady (Chart (Accounted params bare) known limit message) limit message resources.frame.depth
      (rhs.callSites resources.frame) out.code := by
  have straight (hcall : ∀ name args, rhs ≠ .call name args) :
      Steady (Chart (Accounted params bare) known limit message) limit message
        resources.frame.depth [] out.code := by
    apply h.steady limit message (Rhs.lower_fetches hrun hcall h.writable).code
    rw [Rhs.lower_touches hrun hcall]
    exact Rhs.reads_owned h.types hclean hbare
  cases rhs with
  | expr | array | newPair | side => exact straight fun _ _ h => by cases h
  | call name args =>
    simp only [Rhs.check] at hclean
    cases hfun : table.function? name with
    | none => simp [hfun, note] at hclean
    | some signature =>
      simp only [hfun, diagnostics_bind, List.append_eq_nil_iff] at hclean
      refine steady_callFunction hrun ?_ h.writable h.laid h.returnFree ?_ fun _ _ => .inl
      · intro signature' hfun'
        have hsame : known.function? name = table.function? name := by
          simp [SymbolTable.function?, h.functions]
        obtain rfl : signature' = signature := Option.some.inj (hfun'.symm.trans (hsame.trans hfun))
        by_contra hlength
        simp [noteIf, hlength, note] at hclean
      · intro touched htouched
        exact (readsAll_owned h.types args (checkArgs_each hclean.2.1) hbare touched
          htouched).accounted h.laid h.params

end Steady

end Grounded

section Places

variable {target : Target} {resources : Resources} {place : Lowered Place} {bare : List Frame.Local}

/-- A store to a target's place touches the target's variable, as wide as its type asks, or no
variable. -/
theorem Target.owns_store {ty : Ty} (h : target.place.run resources = .ok place)
    (hty : target.typeIn resources.frame = .ok ty) (r : Register) :
    ∀ touched ∈ touchesOf [.instr (.str (target.width ty) r place.value.address)],
      resources.frame.Owns bare touched := by
  cases target with
  | ident name =>
    simp only [Target.place, run_bind_eq_ok, run_lookup, run_ofExcept_eq_ok, run_pure,
      Except.ok.injEq] at h
    obtain ⟨_, _, ⟨⟨offset, ty'⟩, hfind, rfl⟩, rfl, rfl⟩ := h
    obtain rfl : ty' = ty := by simpa [Target.typeIn, hfind, bind, Except.bind] using hty
    intro touched htouched
    obtain rfl : touched = (.store ty'.width, offset) := by
      simpa [Pseudo.touch?, Place.address, touch?, Target.width] using htouched
    exact .of_find hfind fun _ => rfl
  | elem name indices =>
    simp only [Target.place, run_bind_eq_ok, run_pure, Except.ok.injEq] at h
    obtain ⟨address, _, haddress, rfl, rfl⟩ := h
    have hsp := ne_sp_of_mem_free (elementAddress_fetches haddress (.any _)).free
    simp [Pseudo.touch?, Place.address, Address.held, touch?_str_of_ne hsp]
  | side which pair =>
    simp only [Target.place, run_bind_eq_ok, run_pure, Except.ok.injEq] at h
    obtain ⟨address, _, haddress, rfl, rfl⟩ := h
    have hsp := ne_sp_of_mem_free (sideAddress_fetches haddress (.any _)).free
    simp [Pseudo.touch?, Place.address, Address.held, touch?_str_of_ne hsp]

/-- Taking the address of a target's place touches the target's variable, or nothing. -/
theorem Target.owns_placeAddress {out : Lowered Register}
    (h : target.place.run resources = .ok place)
    (hout : (placeAddress place.value).run place.resources = .ok out) :
    ∀ touched ∈ touchesOf out.code, resources.frame.Owns bare touched := by
  cases target with
  | ident name =>
    simp only [Target.place, run_bind_eq_ok, run_lookup, run_ofExcept_eq_ok, run_pure,
      Except.ok.injEq] at h
    obtain ⟨_, _, ⟨⟨offset, ty⟩, hfind, rfl⟩, rfl, rfl⟩ := h
    obtain ⟨r, hr, rfl⟩ := run_intoFresh_eq_ok.1 hout
    have hsp := ne_sp_of_mem_free (List.mem_of_mem_head? hr)
    intro touched htouched
    obtain rfl : touched = (.address, offset) := by
      simpa [Pseudo.touch?, op, touch?, hsp] using htouched
    exact .of_find hfind fun _ => trivial
  | elem | side =>
    simp only [Target.place, run_bind_eq_ok, run_pure, Except.ok.injEq] at h
    obtain ⟨address, _, haddress, rfl, rfl⟩ := h
    simp only [placeAddress, run_pure, Except.ok.injEq] at hout
    subst hout
    simp

end Places

/-- The code of a scope's statement, from that of the statement. -/
theorem Charts.inScope {P : Touch → Int → Prop} {known : SymbolTable} {limit : Nat}
    {message : String → String} {resources : Resources} {slots : Nat} {step : Lower Unit}
    {sites : List CallSite} {out : Lowered Unit}
    (h : (Lower.inScope slots step).run resources = .ok out) (hlaid : resources.frame.Laid)
    (hstep : ∀ {inner : Lowered Unit},
      step.run { resources with frame := resources.frame.openScope slots } = .ok inner →
      (∃ count, (resources.frame.openScope slots).Declared count inner.resources.frame) ∧
      Charts (Chart P known limit message) limit message (resources.frame.openScope slots).depth
        resources.nextLabel inner.resources.nextLabel sites inner.code) :
    Charts (Chart P known limit message) limit message resources.frame.depth resources.nextLabel
      out.resources.nextLabel sites out.code := by
  obtain ⟨inner, hinner, rfl⟩ := run_inScope_eq_ok.1 h
  obtain ⟨⟨_, hdeclared⟩, hcharts⟩ := hstep hinner
  have hbytes : inner.resources.frame.scopeBytes.toNat = slotBytes * slots := by
    rw [hdeclared.scopeBytes]
    omega
  have hdepth : (resources.frame.openScope slots).depth =
      resources.frame.depth + (slotBytes * slots : Nat) := rfl
  rw [hdepth] at hcharts
  simpa [hbytes, scopeCode] using Charts.scope compositional_chart hlaid.depth_nonneg hcharts

section Statements

variable {known table : SymbolTable} {params : List Param} {bare : List Frame.Local}
  {resources : Resources} {out : Lowered Unit} {span : Span}

/-- Straight code takes no label. -/
theorem Grounded.charts_quiet (h : Grounded known table params resources) (limit : Nat)
    (message : String → String) (hquiet : Quiet Harmless resources out)
    (howned : ∀ touched ∈ touchesOf out.code, resources.frame.Owns bare touched) :
    Charts (Chart (Accounted params bare) known limit message) limit message resources.frame.depth
      resources.nextLabel out.resources.nextLabel [] out.code := by
  rw [hquiet.unchanged]
  exact (h.steady limit message hquiet.code howned).charts _

/-- A statement in a scope of its own. -/
theorem Grounded.charts_inScope (h : Grounded known table params resources) {limit : Nat}
    {message : String → String} {P : Touch → Int → Prop} {s : Stmt} {sites : List CallSite}
    (hrun : (Lower.inScope s.slots (s.lower known)).run resources = .ok out)
    (hcharts : ∀ {inner : Lowered Unit},
      (s.lower known).run { resources with frame := resources.frame.openScope s.slots } =
        .ok inner →
      Charts (Chart P known limit message) limit message (resources.frame.openScope s.slots).depth
        resources.nextLabel inner.resources.nextLabel sites inner.code) :
    Charts (Chart P known limit message) limit message resources.frame.depth resources.nextLabel
      out.resources.nextLabel sites out.code :=
  Charts.inScope hrun h.laid fun hinner =>
    ⟨⟨_, ((h.openScope _).balanced hinner).frame⟩, hcharts hinner⟩

namespace Stmt

variable (limit : Nat) (message : String → String)

theorem charts_declare {ty : Ty} {name : String} {rhs : Rhs}
    (h : ((Stmt.declare span ty name rhs).lower known).run resources = .ok out)
    (hclean : ((Stmt.declare span ty name rhs).check table).diagnostics = [])
    (hground : Grounded known table params resources)
    (hbare : rhs.bareLocals resources.frame ⊆ bare) :
    Charts (Chart (Accounted params bare) known limit message) limit message resources.frame.depth
      resources.nextLabel out.resources.nextLabel (rhs.callSites resources.frame) out.code := by
  obtain ⟨hrhs, hadd⟩ := check_declare_clean hclean
  have hnext := hground.lower h hclean
  obtain ⟨value, offset, frame, hvalue, hdeclare, rfl⟩ := lower_declare_eq_ok h
  have hsteady := hground.steady_rhs limit message hvalue hrhs hbare
  have hbrings := Rhs.lower_brings hvalue hground.writable hground.laid hground.returnFree
  rw [hbrings.holds] at hdeclare ⊢
  have hdepth : frame.depth = resources.frame.depth := (Frame.Declared.one hdeclare).keeps.1
  have hfind := Frame.find_of_declare hdeclare
  -- The new variable is touched in the frame that has it.
  have hstraight : StraightCode Harmless frame.Shows
      [.instr (.str ty.width value.value (.offset .sp offset))] := by
    simpa using .storeSlot ⟨_, _, hfind⟩
  have howned : ∀ touched ∈ touchesOf [.instr (.str ty.width value.value (.offset .sp offset))],
      frame.Owns bare touched := by
    intro touched htouched
    obtain rfl : touched = (.store ty.width, offset) := by
      simpa [Pseudo.touch?, touch?] using htouched
    exact .of_find hfind fun _ => rfl
  have hstore := hnext.steady limit message hstraight howned
  simp only [hdepth] at hstore
  exact (hsteady.append_nil compositional_chart hstore).charts _

theorem charts_assign {target : Target} {rhs : Rhs}
    (h : ((Stmt.assign span target rhs).lower known).run resources = .ok out)
    (hclean : ((Stmt.assign span target rhs).check table).diagnostics = [])
    (hground : Grounded known table params resources)
    (htarget : target.bareLocals resources.frame ⊆ bare)
    (hrhs : rhs.bareLocals resources.frame ⊆ bare) :
    Charts (Chart (Accounted params bare) known limit message) limit message resources.frame.depth
      resources.nextLabel out.resources.nextLabel (rhs.callSites resources.frame) out.code := by
  simp only [check, diagnostics_bind, List.append_eq_nil_iff] at hclean
  obtain ⟨ty, value, place, released, hty, hvalue, hplace, hreleased, rfl⟩ := lower_assign_eq_ok h
  have hsteady := hground.steady_rhs limit message hvalue hclean.2.1 hrhs
  rw [(Rhs.lower_brings hvalue hground.writable hground.laid hground.returnFree).holds] at hplace
  have hfound := Target.place_finds hplace (hground.writable.hold _)
  have hback := hfound.release_eq_ok hreleased
  subst hback
  have howned : ∀ touched ∈ touchesOf (place.code ++
      [.instr (.str (target.width ty) value.value place.value.address)]),
      resources.frame.Owns bare touched := by
    simp only [touchesOf_append, List.mem_append]
    rintro touched (htouched | htouched)
    · rw [Target.place_touches hplace] at htouched
      exact Target.reads_owned hground.types hclean.1 htarget touched htouched
    · exact Target.owns_store hplace hty _ touched htouched
  have hstore := hground.steady limit message (hfound.store (target.width ty) value.value) howned
  exact (hsteady.append_nil compositional_chart hstore).charts _

theorem charts_increment {name : String}
    (h : ((Stmt.increment span name).lower known).run resources = .ok out)
    (hclean : ((Stmt.increment span name).check table).diagnostics = [])
    (hground : Grounded known table params resources) :
    Charts (Chart (Accounted params bare) known limit message) limit message resources.frame.depth
      resources.nextLabel out.resources.nextLabel [] out.code := by
  obtain ⟨offset, ty, r, hr, hfind, rfl⟩ := lower_increment_eq_ok h
  have hword : ty.width = .word := by
    obtain ⟨l, hl, _, rfl⟩ := Frame.find_eq_ok.1 hfind
    simp only [check, hground.types.typeOf? hl, diagnostics_bind, List.append_eq_nil_iff] at hclean
    exact width_of_expect_int hclean.1
  have hslot : resources.frame.Shows offset := ⟨_, _, hfind⟩
  have hW := hground.writable.free r hr
  apply hground.charts_quiet limit message ⟨rfl, ?_⟩ ?_
  · simpa using ⟨.loadSlot hW hslot, .arith hW, .routine, .storeSlot hslot⟩
  · intro touched htouched
    have hload : (load r (.offset .sp offset)).touch? = some (.load .word, offset) := rfl
    have hadd : (opFlags .add r r (.imm 1)).touch? = none :=
      touch?_arith_of_ne (ne_sp_of_mem_free hr)
    have hstore : (store r (.offset .sp offset)).touch? = some (.store .word, offset) := rfl
    have htwo : touched = (.load .word, offset) ∨ touched = (.store .word, offset) := by
      simpa [Pseudo.touch?, hload, hadd, hstore] using htouched
    rcases htwo with rfl | rfl
    · exact .of_find hfind fun _ => .inl hword.symm
    · exact .of_find hfind fun _ => hword.symm

theorem charts_read {target : Target}
    (h : ((Stmt.read span target).lower known).run resources = .ok out)
    (hclean : ((Stmt.read span target).check table).diagnostics = [])
    (hground : Grounded known table params resources)
    (hbare : target.bareLocals resources.frame ⊆ bare) :
    Charts (Chart (Accounted params bare) known limit message) limit message resources.frame.depth
      resources.nextLabel out.resources.nextLabel [] out.code := by
  simp only [check, diagnostics_bind, List.append_eq_nil_iff] at hclean
  have hbalanced := hground.balanced h
  simp only [lower, run_bind_eq_ok, run_getFrame, run_ofExcept_eq_ok, run_emit, run_release,
    run_callRoutine, Except.ok.injEq] at h
  obtain ⟨_, _, rfl, ⟨_, _, ⟨ty, _, rfl⟩, ⟨place, _, hplace, ⟨r, _, hr, ⟨_, _, rfl, ⟨_, _, rfl,
    rfl, rfl⟩, rfl⟩, rfl⟩, rfl⟩, rfl⟩, rfl⟩ := h
  have hfound := Target.place_finds hplace hground.writable
  have haddress := hfound.placeAddress_fetches hr hground.writable
  have hholds : r.resources = resources.hold r.value := haddress.holds
  have hcode := haddress.code
  rw [StraightCode.append_iff] at hcode
  apply hground.charts_quiet limit message ⟨?_, ?_⟩ ?_
  · simp [hholds, Resources.hold]
  · simpa using ⟨hcode.1, hcode.2, .mov hground.writable.r0, .routine⟩
  · have hmove (r : Register) : (move .r0 r).touch? = none := rfl
    simp only [List.nil_append, touchesOf_append, touchesOf_cons, touchesOf_nil, Pseudo.touch?,
      hmove, Option.toList, List.append_nil, List.mem_append]
    rintro touched (htouched | htouched)
    · rw [Target.place_touches hplace] at htouched
      exact Target.reads_owned hground.types hclean.1 hbare touched htouched
    · exact Target.owns_placeAddress hplace hr touched htouched

theorem charts_ret {e : Expr}
    (h : ((Stmt.ret span e).lower known).run resources = .ok out)
    (hclean : ((Stmt.ret span e).check table).diagnostics = [])
    (hground : Grounded known table params resources)
    (hbare : e.bareLocals resources.frame ⊆ bare) :
    Charts (Chart (Accounted params bare) known limit message) limit message resources.frame.depth
      resources.nextLabel out.resources.nextLabel [] out.code := by
  simp only [check, diagnostics_bind, List.append_eq_nil_iff] at hclean
  obtain ⟨value, hvalue, rfl⟩ := lower_ret_eq_ok h
  have hexpr := e.lower_fetches hvalue hground.writable
  have hmove : StraightCode Harmless resources.frame.Shows
      (value.code ++ [.instr (move .r0 value.value)]) := by
    simpa using ⟨hexpr.code, .mov hground.writable.r0⟩
  have htouches : touchesOf (value.code ++ [.instr (move .r0 value.value)]) =
      e.reads resources.frame := by
    have hnone : (move .r0 value.value).touch? = none := rfl
    simp [e.lower_touches hvalue, Pseudo.touch?, hnone]
  have hsteady := hground.steady limit message hmove fun touched ht =>
    e.reads_owned hground.types hclean.1 hbare touched (htouches ▸ ht)
  have hreturn := (hsteady.charts resources.nextLabel).append compositional_chart
    (Charts.ret compositional_chart hground.laid.depth_nonneg _)
  simpa [hexpr.holds] using hreturn

theorem charts_exit {e : Expr}
    (h : ((Stmt.exit span e).lower known).run resources = .ok out)
    (hclean : ((Stmt.exit span e).check table).diagnostics = [])
    (hground : Grounded known table params resources)
    (hbare : e.bareLocals resources.frame ⊆ bare) :
    Charts (Chart (Accounted params bare) known limit message) limit message resources.frame.depth
      resources.nextLabel out.resources.nextLabel [] out.code := by
  simp only [check, diagnostics_bind, List.append_eq_nil_iff] at hclean
  obtain ⟨value, hvalue, rfl⟩ := lower_exit_eq_ok h
  have hexpr := e.lower_fetches hvalue hground.writable
  apply hground.charts_quiet limit message ⟨?_, ?_⟩ ?_
  · simp [hexpr.holds, Resources.hold, RegisterPool.hold, RegisterPool.holdReturn,
      RegisterPool.release, RegisterPool.freeReturn, ← hground.returnFree]
  · simpa using ⟨hexpr.code, .mov hground.writable.r0, .library (by decide),
      .constant hground.writable.r0⟩
  · have htouches : touchesOf (value.code ++ [.instr (move .r0 value.value), .instr (call "exit"),
        .instr (loadConst .r0 0)]) = e.reads resources.frame := by
      rw [touchesOf_append, e.lower_touches hvalue]
      exact List.append_nil _
    rw [htouches]
    exact e.reads_owned hground.types hclean.1 hbare

theorem charts_println {e : Expr}
    (h : ((Stmt.println span e).lower known).run resources = .ok out)
    (hclean : ((Stmt.println span e).check table).diagnostics = [])
    (hground : Grounded known table params resources)
    (hbare : e.bareLocals resources.frame ⊆ bare) :
    Charts (Chart (Accounted params bare) known limit message) limit message resources.frame.depth
      resources.nextLabel out.resources.nextLabel [] out.code := by
  simp only [check, diagnostics_bind, List.append_eq_nil_iff] at hclean
  simp only [lower, run_bind_eq_ok, run_callRoutine, Except.ok.injEq] at h
  obtain ⟨printed, _, hprinted, rfl, rfl⟩ := h
  have hquiet := printValue_quiet hprinted hground.writable
  have hquiet' : Quiet Harmless resources
      { printed with code := printed.code ++ [.routine none .printLn] } :=
    ⟨hquiet.unchanged, by simpa using ⟨hquiet.code, .routine⟩⟩
  apply hground.charts_quiet limit message hquiet'
  rw [touchesOf_append, touches_printValue hprinted]
  simpa [Pseudo.touch?] using e.reads_owned hground.types hclean.1 hbare

end Stmt

/-- The code of a checked statement makes the calls of the source, in order, and touches only the
function's own slots and its parameters. -/
theorem Stmt.lower_charts (s : Stmt) (limit : Nat) (message : String → String)
    (h : (s.lower known).run resources = .ok out) (hclean : (s.check table).diagnostics = [])
    (hground : Grounded known table params resources)
    (hbare : s.bareLocals resources.frame ⊆ bare) :
    Charts (Chart (Accounted params bare) known limit message) limit message resources.frame.depth
      resources.nextLabel out.resources.nextLabel (s.callSites resources.frame) out.code := by
  have hR : Compositional (Chart (Accounted params bare) known limit message) := compositional_chart
  -- Statements without parts are charted above. The others put the charts of their parts together,
  -- each made in the frame in which the part is lowered.
  induction s generalizing table resources out with
  | skip span =>
    simp only [lower, run_pure, Except.ok.injEq] at h
    subst h
    exact hground.charts_quiet limit message ⟨rfl, by simp⟩ (by simp)
  | declare span ty name rhs => exact charts_declare limit message h hclean hground hbare
  | assign span target rhs =>
    simp only [bareLocals, List.append_subset] at hbare
    exact charts_assign limit message h hclean hground hbare.1 hbare.2
  | increment span name => exact charts_increment limit message h hclean hground
  | read span target => exact charts_read limit message h hclean hground hbare
  | free span e =>
    simp only [check, diagnostics_bind, List.append_eq_nil_iff] at hclean
    apply hground.charts_quiet limit message (passTo_quiet h hground.writable)
    rw [touches_passTo h]
    exact e.reads_owned hground.types hclean.1 hbare
  | ret span e => exact charts_ret limit message h hclean hground hbare
  | exit span e => exact charts_exit limit message h hclean hground hbare
  | print span e =>
    simp only [check, diagnostics_bind, List.append_eq_nil_iff] at hclean
    apply hground.charts_quiet limit message (printValue_quiet h hground.writable)
    rw [touches_printValue h]
    exact e.reads_owned hground.types hclean.1 hbare
  | println span e => exact charts_println limit message h hclean hground hbare
  | ifThen span cond arm ih =>
    simp only [check, diagnostics_bind, List.append_eq_nil_iff,
      SymbolTable.diagnostics_scoped] at hclean
    simp only [bareLocals, List.append_subset] at hbare
    obtain ⟨test, body, htest, hbody, rfl⟩ := lower_ifThen_eq_ok h
    have hnext := hground.withLabel (resources.nextLabel + 1)
    have hcond := hnext.steady_testCondition limit message htest hclean.1 hbare.1
    rw [(testCondition_quiet htest hnext.writable).unchanged] at hbody
    have harm := hnext.charts_inScope hbody fun hrun =>
      ih hrun hclean.2 (hnext.openScope _) hbare.2
    exact .ifThen hR hground.laid.depth_nonneg hcond harm
  | ifElse span cond thenArm elseArm ihThen ihElse =>
    simp only [check, diagnostics_bind, List.append_eq_nil_iff, diagnostics_pure, and_true,
      SymbolTable.diagnostics_scoped, value_scoped_check] at hclean
    simp only [bareLocals, List.append_subset] at hbare
    obtain ⟨test, thenOut, elseOut, htest, hthen, helse, rfl⟩ := lower_ifElse_eq_ok h
    have hfirst := hground.withLabel (resources.nextLabel + 1)
    have hcond := hfirst.steady_testCondition limit message htest hclean.1 hbare.1.1
    have hquiet := testCondition_quiet htest hfirst.writable
    rw [hquiet.unchanged] at hthen
    have hnext := hground.withLabel (resources.nextLabel + 2)
    have harm := hnext.charts_inScope hthen fun hrun =>
      ihThen hrun hclean.2.1 (hnext.openScope _) hbare.1.2
    rw [(hnext.inScope_balanced hthen).resources_eq] at helse
    have hlast := hground.withLabel thenOut.resources.nextLabel
    have harm' := hlast.charts_inScope helse fun hrun =>
      ihElse hrun hclean.2.2 (hlast.openScope _) hbare.2
    simpa [hquiet.unchanged, callSites] using
      Charts.ifElse hR hground.laid.depth_nonneg hcond harm harm'
  | whileDo span cond body ih =>
    simp only [check, diagnostics_bind, List.append_eq_nil_iff,
      SymbolTable.diagnostics_scoped] at hclean
    simp only [bareLocals, List.append_subset] at hbare
    obtain ⟨round, test, hround, htest, rfl⟩ := lower_whileDo_eq_ok h
    have hnext := hground.withLabel (resources.nextLabel + 2)
    have hbody := hnext.charts_inScope hround fun hrun =>
      ih hrun hclean.2 (hnext.openScope _) hbare.2
    rw [(hnext.inScope_balanced hround).resources_eq] at htest
    have hafter := hground.withLabel round.resources.nextLabel
    have hcond := hafter.steady_testCondition limit message htest hclean.1 hbare.1
    simpa [(testCondition_quiet htest hafter.writable).unchanged, callSites] using
      Charts.loop hR hground.laid.depth_nonneg hbody hcond
  | doWhile span body cond ih =>
    simp only [check, diagnostics_bind, List.append_eq_nil_iff, diagnostics_pure, and_true,
      SymbolTable.diagnostics_scoped, value_scoped_check] at hclean
    simp only [bareLocals, List.append_subset] at hbare
    obtain ⟨round, test, hround, htest, rfl⟩ := lower_doWhile_eq_ok h
    have hnext := hground.withLabel (resources.nextLabel + 1)
    have hbody := hnext.charts_inScope hround fun hrun =>
      ih hrun hclean.1 (hnext.openScope _) hbare.2
    rw [(hnext.inScope_balanced hround).resources_eq] at htest
    have hafter := hground.withLabel round.resources.nextLabel
    have hcond := hafter.steady_testCondition limit message htest hclean.2 hbare.1
    simpa [(testCondition_quiet htest hafter.writable).unchanged, callSites] using
      Charts.untilLoop hR hground.laid.depth_nonneg hbody hcond
  | forLoop span init cond step body ihInit ihStep ihBody =>
    simp only [check_forLoop, SymbolTable.diagnostics_scoped] at hclean
    obtain ⟨hfirstClean, hcondClean, hslots, hlastClean, hbodyClean⟩ := checkFor_clean hclean
    simp only [bareLocals, List.append_subset] at hbare
    rw [lower_forLoop] at h
    have hopen := hground.openScope init.slots
    refine Charts.inScope h hground.laid fun hrun => ?_
    obtain ⟨first, round, last, test, hfirst, hround, hlast, htest, rfl⟩ := lowerFor_eq_ok hrun
    have hinit := hopen.lower hfirst hfirstClean
    have hnext := hinit.withLabel (first.resources.nextLabel + 2)
    have hframe : first.resources.frame = init.frameAfter (resources.frame.openScope init.slots) :=
      (init.lower_mentions known _ _ _ rfl hfirst).1
    rw [← hframe] at hbare
    have hinitCharts := ihInit hfirst hfirstClean hopen hbare.1.1.1
    have hbodyCharts := hnext.charts_inScope hround fun hrun =>
      ihBody hrun hbodyClean (hnext.openScope _) hbare.2
    rw [(hnext.inScope_balanced hround).resources_eq] at hlast
    have hafter := hinit.withLabel round.resources.nextLabel
    have hstepCharts := ihStep hlast hlastClean hafter hbare.1.2
    have hlastGround := hafter.lower hlast hlastClean
    rw [check_of_slots hslots] at hlastGround
    have hlastFrame : last.resources.frame = first.resources.frame := by
      have hbalanced := hafter.balanced hlast
      rw [hslots] at hbalanced
      exact hbalanced.frame.eq_of_zero
    have hcond := hlastGround.steady_testCondition limit message htest hcondClean
      (hlastFrame ▸ hbare.1.1.2)
    have hquiet := testCondition_quiet htest hlastGround.writable
    -- All clauses are at the depth of the scope of the first one.
    have hinitBalanced := hopen.balanced hfirst
    have hstepBalanced := hafter.balanced hlast
    rw [hlastFrame] at hcond
    have hloop := Charts.loop hR hinit.laid.depth_nonneg (hbodyCharts.append hR hstepCharts) hcond
    rw [hinitBalanced.depth_eq] at hloop
    refine ⟨?_, ?_⟩
    · exact ⟨_, by simpa [hquiet.unchanged] using hinitBalanced.frame.trans hstepBalanced.frame⟩
    · simpa [hquiet.unchanged, callSites, hframe] using hinitCharts.append hR hloop
  | block span body ih =>
    simp only [check, SymbolTable.diagnostics_scoped] at hclean
    exact hground.charts_inScope h fun hrun => ih hrun hclean (hground.openScope _) hbare
  | seq span first second ihFirst ihSecond =>
    obtain ⟨hfirst, hsecond, _⟩ := check_seq_clean hclean
    simp only [bareLocals, List.append_subset] at hbare
    obtain ⟨a, b, ha, hb, rfl⟩ := lower_seq_eq_ok h
    have hmid := hground.lower ha hfirst
    have hleft := ihFirst ha hfirst hground hbare.1
    -- The source says which frame the first statement leaves to the second.
    have hframe := (first.lower_mentions known _ _ _ rfl ha).1
    rw [← hframe] at hbare
    have hright := ihSecond hb hsecond hmid hbare.2
    rw [(hground.balanced ha).depth_eq, hframe] at hright
    exact hleft.append hR hright

end Statements

end ArmCompiler
