import ArmCompiler.Proofs.CallSites
import ArmCompiler.Proofs.LinkClosed
import ArmCompiler.Proofs.Scopes

/-!
# The Argument Area

A caller pushes arguments below everything on its stack, and the callee finds them as parameters
above the link register that it saves. Both sides agree on where an argument lies: at its
`argumentAddress`. While arguments are pushed, variables are read at their own addresses, and after
the call the stack pointer is back where it was. Both sides also agree on how wide an argument is,
unless the callee accesses an element of the parameter without an index: this reads a word, whatever
the parameter's type is. Main statement: `Program.argument_area_shared`.

## Contents
- §1: what a callee receives
- §2: what a caller passes
- §3: paths in charted code
- §4: bodies of a checked program
- §5: compiled programs
-/

namespace ArmCompiler

open Instruction Lower Listing Report

/-! ## §1 What a callee receives -/

/-- The stack pointer at a depth of a function whose arguments were pushed from `sp` on. The saved
link register lies below them. -/
def calleeStackPointer (sp : Int) (count : Nat) (depth : Int) : Int :=
  sp - slotBytes * count - slotBytes - depth

/-- A parameter is found where its argument was pushed. -/
theorem calleeStackPointer_add (sp : Int) (count index : Nat) (depth : Int) :
    calleeStackPointer sp count depth + (depth + slotBytes + slotBytes * index) =
      argumentAddress sp count index := by
  simp only [calleeStackPointer, argumentAddress, Int.mul_sub]
  omega

namespace Function

/-- The frame in which the body of a function starts. -/
def frame (f : Function) : Frame := (Frame.ofParams f.params).openScope f.body.slots

/-- The function accesses an element of a parameter without an index. -/
def AccessesBare (f : Function) (index : Nat) (param : Param) : Prop :=
  Frame.paramLocal index param ∈ f.body.bareLocals f.frame

/-- What a function does with its parameters, given its code below the saved link register. -/
structure Receives (f : Function) (code : List Instruction) : Prop where
  /-- At every depth, a parameter in sight lies where its argument was pushed. -/
  places : ∀ {frame : Frame} {index : Nat} {param : Param},
    frame.params = (Frame.ofParams f.params).params → f.params[index]? = some param →
    (∀ scope ∈ frame.scopes, scope.locals.lookup param.name = none) →
    ∃ offset, frame.lookup? param.name = some (offset, param.ty) ∧
      offset = frame.depth + slotBytes + slotBytes * index ∧
      ∀ sp, calleeStackPointer sp f.params.length frame.depth + offset =
        argumentAddress sp f.params.length index
  /-- On every path, what is touched is a slot of the function's own, or the place of an argument,
  as wide as the parameter's type asks. -/
  touches : ∀ {position : Nat} {depth move offset : Int} {i : Instruction} {touch : Touch},
    Reaches code position depth → code[position]? = some i → i.stackMove? = some move →
    i.touch? = some (touch, offset) →
    offset + slotBytes ≤ depth + move ∨ ∃ index param, f.params[index]? = some param ∧
      touch.Suits param.ty (f.AccessesBare index param) ∧
      offset = depth + move + slotBytes + slotBytes * index ∧
      ∀ sp, calleeStackPointer sp f.params.length (depth + move) + offset =
        argumentAddress sp f.params.length index
  /-- The function returns with the stack pointer at the saved link register. -/
  disciplined : Disciplined code

end Function

/-- Among entries with distinct names each is found under its name. -/
theorem lookup_of_mem {α : Type} {entries : List (String × α)} {name : String} {a : α}
    (hnodup : (entries.map (·.1)).Nodup) (hmem : (name, a) ∈ entries) :
    entries.lookup name = some a := by
  obtain ⟨before, after, rfl⟩ := List.append_of_mem hmem
  refine List.lookup_eq_some_iff.2 ⟨before, after, rfl, fun entry hentry => ?_⟩
  rw [List.map_append, List.nodup_append] at hnodup
  have hne := hnodup.2.2 entry.1 (List.mem_map_of_mem hentry) name (by simp)
  simpa using hne.symm

/-- A parameter that no local variable hides is found in its place. -/
theorem Frame.lookup?_param {frame : Frame} {params : List Param} {index : Nat} {param : Param}
    (hparams : frame.params = (Frame.ofParams params).params)
    (hnodup : (params.map (·.name)).Nodup) (hparam : params[index]? = some param)
    (hhidden : ∀ scope ∈ frame.scopes, scope.locals.lookup param.name = none) :
    frame.lookup? param.name =
      some (frame.depth + slotBytes + slotBytes * index, param.ty) := by
  have hkeys : (Frame.ofParams params).params.map (·.1) = (params.map (·.name)).reverse := by
    rw [ofParams, List.map_reverse]
    congr 1
    apply List.ext_getElem?
    intro i
    simp [Function.comp_def]
  -- The last parameter is entered first. With distinct names the order makes no difference.
  have hlookup : frame.params.lookup param.name = some (Frame.paramLocal index param) := by
    rw [hparams]
    apply lookup_of_mem
    · rw [hkeys]
      exact List.nodup_reverse.2 hnodup
    · exact Frame.mem_ofParams.2 ⟨index, param, hparam, rfl⟩
  have hscopes : frame.scopes.findSome? (fun scope => scope.locals.lookup param.name) = none := by
    rw [List.findSome?_eq_none_iff]
    exact hhidden
  have hoffset : frame.offset (Frame.paramLocal index param) =
      frame.depth + slotBytes + slotBytes * index := by
    simp only [offset, paramLocal, slotBytes]
    omega
  rw [Frame.lookup?, Frame.local?, hscopes, hlookup]
  simp only [Option.none_or, Option.map_some, hoffset]
  rfl

/-! ## §2 What a caller passes -/

/-- `site.Made known limit message f lead pushes tail`: the code of a call to a function, between
the code `lead` above it and the code `tail` below it. Depths are counted from the link register
that the caller has saved. -/
structure CallSite.Made (known : SymbolTable) (limit : Nat) (message : String → String)
    (f : Function) (site : CallSite) (lead pushes tail : List Instruction) : Prop where
  counted : site.args.length = f.params.length
  /-- Every path comes to the pushes with the stack pointer at the depth of the frame. -/
  starts : ∀ {depth}, Reaches (lead ++ (pushes ++ call (functionLabel f.name) ::
      (adjustStack .add limit (slotBytes * f.params.length) ++ tail))) lead.length depth →
    depth = site.frame.depth
  /-- Each argument is stored at its address, as wide as the parameter's type asks. All variables
  that the arguments read are read at their own addresses. -/
  pushed : ∀ sp, walk sp pushes = some (sp - slotBytes * f.params.length,
    argumentTouches site.frame sp f.params site.args)
  /-- After the call the stack pointer goes back to where it was before the pushes. -/
  released : ∀ sp, walk (sp - slotBytes * f.params.length)
    (adjustStack .add limit (slotBytes * f.params.length)) = some (sp, [])
  /-- This is the code that is generated for the call, and it leaves the frame as it was. -/
  generated : ∃ resources out r, resources.frame = site.frame ∧
    (callFunction known site.name site.args).run resources = .ok out ∧
    out.resources.frame = resources.frame ∧
    out.code.flatMap (·.plain limit message) = pushes ++ call (functionLabel f.name) ::
      (adjustStack .add limit (slotBytes * f.params.length) ++ [move r .r0])

/-- The calls of a program, each with the name of the sequence that it stands in. -/
def Program.callSites (p : Program) : List (String × CallSite) :=
  p.functions.flatMap (fun f => (f.body.callSites f.frame).map fun site =>
    (functionLabel f.name, site)) ++
    (p.body.callSites (({} : Frame).openScope p.body.slots)).map fun site => ("main", site)

/-! ## §3 Paths in charted code -/

section Paths

variable {depths : Nat → Int} {marked : List (Int × Instruction)} {after : List Instruction}

/-- On every path only what is permitted is touched. -/
theorem Flow.permitted {P : Touch → Int → Prop} (hflow : Flow depths 0 marked 0)
    (hafter : labelsOf after = []) (hpermitted : ∀ m ∈ marked, Permitted P m) {position : Nat}
    {depth move offset : Int} {i : Instruction} {touch : Touch}
    (hreach : Reaches ((returning marked).map (·.2) ++ after) position depth)
    (hi : ((returning marked).map (·.2) ++ after)[position]? = some i)
    (hmove : i.stackMove? = some move) (htouch : i.touch? = some (touch, offset)) :
    P touch (offset - (depth + move)) := by
  obtain ⟨j, hj⟩ := hreach.exists_marked hflow hafter
  obtain rfl : j = i := Option.some.inj ((getElem?_returning hj).symm.trans hi)
  rcases List.mem_append.1 (List.mem_of_getElem? hj) with hm | hm
  · exact hpermitted _ hm htouch hmove
  · obtain ⟨_, rfl⟩ := Prod.mk.inj (List.mem_singleton.1 hm)
    cases htouch

/-- Every path comes to a place of marked code at the depth that is marked there. -/
theorem Reaches.depth_eq {lead rest : List (Int × Instruction)} {depth depth' : Int}
    {i : Instruction} (hflow : Flow depths 0 (lead ++ rest) 0) (hafter : labelsOf after = [])
    (hhead : rest[0]? = some (depth', i))
    (hreach : Reaches ((returning (lead ++ rest)).map (·.2) ++ after) lead.length depth) :
    depth = depth' := by
  obtain ⟨j, hj⟩ := hreach.exists_marked hflow hafter
  obtain ⟨tail, rfl⟩ : ∃ tail, rest = (depth', i) :: tail := by
    cases rest <;> simp_all
  have hsame : (depth', i) = (depth, j) := by simpa [returning] using hj
  exact (Prod.mk.inj hsame).1.symm

/-- An instruction of marked code that is not in what follows is marked. -/
theorem exists_mark {before below : List Instruction} {i : Instruction} (hi : i ∉ after)
    (h : marked.map (·.2) ++ after = before ++ i :: below) :
    ∃ above depth rest, marked = above ++ (depth, i) :: rest ∧ before = above.map (·.2) ∧
      below = rest.map (·.2) ++ after := by
  rcases List.append_eq_append_iff.1 h with ⟨middle, _, hafter⟩ | ⟨middle, hmarked, hbelow⟩
  · exact absurd (by simp [hafter]) hi
  · cases middle with
    | nil => exact absurd (by simp [← show i :: below = after from hbelow]) hi
    | cons j middle =>
      obtain ⟨rfl, rfl⟩ := List.cons.inj hbelow
      obtain ⟨above, rest, rfl, rfl, hrest⟩ := List.map_eq_append_iff.1 hmarked
      obtain ⟨⟨depth, _⟩, rest, rfl, rfl, rfl⟩ := List.map_eq_cons_iff.1 hrest
      exact ⟨above, depth, rest, rfl, rfl, rfl⟩

/-- The code of a body, marked: what stands below the saved link register. -/
theorem Charts.exists_marked {P : Touch → Int → Prop} {known : SymbolTable} {limit n n' : Nat}
    {message : String → String} {sites : List CallSite} {code : List Pseudo}
    (h : Charts (Chart P known limit message) limit message 0 n n' sites code) :
    ∃ depths marked, marked.map (·.2) = code.flatMap (·.plain limit message) ∧
      Flow depths 0 marked 0 ∧ Chart P known limit message sites marked := by
  obtain ⟨_, inner, hcharted⟩ := h
  obtain ⟨marked, hmarked, hflow, hchart⟩ := hcharted inner fun _ _ _ => rfl
  exact ⟨inner, marked, hmarked, hflow, hchart⟩

/-- The sequence of a body, from its marked code. -/
theorem code_bodySequence {label : String} {code : List Instruction}
    (hmarked : marked.map (·.2) = code) :
    (bodySequence label code).code = .label label :: .push .lr ::
      ((returning marked).map (·.2) ++ [.directive .ltorg]) := by
  simp [bodySequence, opening, Ending.code, returning, hmarked]

/-- A call in the sequence of a body stands between its opening and its ending. -/
theorem exists_marked_call {label name : String} {before below : List Instruction}
    (hcode : (bodySequence label (marked.map (·.2))).code =
      before ++ call (functionLabel name) :: below) :
    ∃ above depth rest, marked = above ++ (depth, call (functionLabel name)) :: rest ∧
      before = .label label :: .push .lr :: above.map (·.2) ∧
      below = rest.map (·.2) ++ [.pop .pc, .directive .ltorg] := by
  rw [code_bodySequence rfl] at hcode
  have hopening : call (functionLabel name) ∉ opening label true := by simp [opening, call]
  obtain ⟨before', rfl, hbody⟩ := exists_of_append_eq hopening
    (show opening label true ++ _ = _ from hcode)
  have hending : call (functionLabel name) ∉ [.pop .pc, .directive .ltorg] := by simp [call]
  have hsplit : marked.map (·.2) ++ [.pop .pc, .directive .ltorg] =
      before' ++ call (functionLabel name) :: below := by
    simpa [returning] using hbody
  obtain ⟨above, depth, rest, hmarked, rfl, hbelow⟩ := exists_mark hending hsplit
  exact ⟨above, depth, rest, hmarked, rfl, hbelow⟩

/-- A call in the sequence of a body is that of a call of the source. -/
theorem Chart.exists_made {P : Touch → Int → Prop} {known : SymbolTable} {limit : Nat}
    {message : String → String} {sites : List CallSite} {label name : String}
    {before below : List Instruction} (hchart : Chart P known limit message sites marked)
    (hflow : Flow depths 0 marked 0)
    (hcode : (bodySequence label (marked.map (·.2))).code =
      before ++ call (functionLabel name) :: below) :
    ∃ site ∈ sites, site.name = name ∧ ∃ signature, known.function? name = some signature ∧
      ∀ f : Function, f.signature = signature → ∃ lead pushes tail,
        before = .label label :: .push .lr :: (lead ++ pushes) ∧
        below = adjustStack .add limit (slotBytes * f.params.length) ++ tail ∧
        site.Made known limit message f lead pushes tail := by
  obtain ⟨above, depth, rest, rfl, rfl, rfl⟩ := exists_marked_call hcode
  obtain ⟨site, hsite, rfl, lead, pushes, release, tail, rfl, rfl, hpasses⟩ :=
    hchart.2.exists_site rfl
  obtain ⟨signature, hfun, hcount, hwalk⟩ := hpasses.arguments
  have hname : signature.name = site.name := by simpa using List.find?_some hfun
  refine ⟨site, hsite, rfl, signature, hfun, ?_⟩
  rintro f rfl
  have hrelease : release.map (·.2) = adjustStack .add limit (slotBytes * f.params.length) := by
    rw [hpasses.released, hcount]
    rfl
  have hcall : call (functionLabel f.name) = call (functionLabel site.name) := by rw [← hname]; rfl
  refine ⟨lead.map (·.2), pushes.map (·.2), tail.map (·.2) ++ [.pop .pc, .directive .ltorg], ?_, ?_,
    hcount, ?_, hwalk, ?_, ?_⟩
  · simp
  · simp [← hrelease]
  · intro depth' hreach
    obtain ⟨i, hstart⟩ := hpasses.start
    have hhead : (pushes ++ (depth, call (functionLabel site.name)) :: (release ++ tail))[0]? =
        some (site.frame.depth, i) := by
      cases pushes <;> simpa using hstart
    rw [List.append_assoc] at hflow
    have hafter : labelsOf [.directive .ltorg] = [] := rfl
    apply Reaches.depth_eq hflow hafter hhead
    simpa [returning, ← hrelease, hcall] using hreach
  · intro sp
    rw [walk_unreserve]
    simp
  · rw [← hrelease, hcall]
    exact hpasses.generated

end Paths

/-! ## §4 Bodies of a checked program -/

/-- The code of a body in a scope of its own. -/
theorem Stmt.lowerBody_charts {known table : SymbolTable} {params : List Param}
    {resources : Resources} {out : Lowered Unit} (body : Stmt) (limit : Nat)
    (message : String → String) (h : (body.lowerBody known).run resources = .ok out)
    (hclean : (body.check table).diagnostics = [])
    (hground : Grounded known table params resources) :
    Charts (Chart (Accounted params
        (body.bareLocals (resources.frame.openScope body.slots))) known limit message)
      limit message resources.frame.depth resources.nextLabel out.resources.nextLabel
      (body.callSites (resources.frame.openScope body.slots)) out.code := by
  -- The scope of a body has no counterpart in the table.
  have hopen : Grounded known table params
      { resources with frame := resources.frame.openScope body.slots } :=
    ⟨hground.functions, hground.types, hground.params, hground.laid.openScope _, hground.writable,
      hground.returnFree⟩
  exact Charts.inScope h hground.laid fun hrun =>
    ⟨⟨_, (hopen.balanced hrun).frame⟩,
      body.lower_charts limit message hrun hclean hopen (List.Subset.refl _)⟩

namespace Program

variable {p : Program} {config : Config} {resources : Resources} {out : Lowered Unit}

theorem Clean.function_charts (h : p.Clean) {f : Function} (hf : f ∈ p.functions) (limit : Nat)
    (message : String → String) (hframe : resources.frame = .ofParams f.params)
    (hpool : resources.pool = .ofCount config.generalRegisters)
    (hrun : (f.body.lowerBody p.check.value).run resources = .ok out) :
    Charts (Chart (Accounted f.params (f.body.bareLocals f.frame)) p.check.value limit message)
      limit message 0 resources.nextLabel out.resources.nextLabel (f.body.callSites f.frame)
      out.code := by
  have hground : Grounded p.check.value (p.functionTable.inFunction f) f.params resources := by
    refine ⟨h.functions_eq, ?_, by rw [hframe], ?_, ?_, by rw [hpool]; rfl⟩
    · rw [hframe]
      exact typeOf?_inFunction rfl rfl
    · rw [hframe]
      exact Frame.laid_ofParams f.params
    · rw [hpool]
      exact writable_harmless _
  have hcharts := f.body.lowerBody_charts limit message hrun (h.functions f hf) hground
  rw [hframe] at hcharts
  exact hcharts

theorem Clean.main_charts (h : p.Clean) (limit : Nat) (message : String → String)
    (hframe : resources.frame = {}) (hpool : resources.pool = .ofCount config.generalRegisters)
    (hrun : (p.body.toMain p.check.value).step.run resources = .ok out) :
    Charts (Chart (Accounted []
        (p.body.bareLocals (({} : Frame).openScope p.body.slots))) p.check.value limit message)
      limit message 0 resources.nextLabel out.resources.nextLabel
      (p.body.callSites (({} : Frame).openScope p.body.slots)) out.code := by
  simp only [Stmt.toMain, run_bind_eq_ok, run_emit, Except.ok.injEq] at hrun
  obtain ⟨inner, _, hinner, rfl, rfl⟩ := hrun
  have hground : Grounded p.check.value p.functionTable [] resources := by
    refine ⟨h.functions_eq, ?_, by rw [hframe]; rfl, ?_, ?_, by rw [hpool]; rfl⟩
    · rw [hframe]
      intro name
      simp [SymbolTable.typeOf?, SymbolTable.scopes, functionTable, Frame.local?]
    · rw [hframe]
      exact Frame.laid_ofParams []
    · rw [hpool]
      exact writable_harmless _
  have hcharts := p.body.lowerBody_charts limit message hinner h.main hground
  have hzero : StraightCode Harmless resources.frame.Shows [.instr (loadConst .r0 0)] := by
    simpa using .constant hground.writable.r0
  have htouches : touchesOf [.instr (loadConst .r0 0)] = [] := rfl
  have hall := hcharts.append compositional_chart
    ((hground.steady limit message hzero (by simp [htouches])).charts _)
  rw [List.append_nil, hframe] at hall
  exact hall

/-- The code of every body makes the calls that the source makes there. -/
theorem Clean.body_charts (h : p.Clean) {body : Body} (hbody : body ∈ p.bodies p.check.value)
    (limit : Nat) (message : String → String) (hframe : resources.frame = body.frame)
    (hpool : resources.pool = .ofCount config.generalRegisters)
    (hrun : body.step.run resources = .ok out) :
    ∃ P sites, Charts (Chart P p.check.value limit message) limit message 0 resources.nextLabel
        out.resources.nextLabel sites out.code ∧
      ∀ site ∈ sites, (body.label, site) ∈ p.callSites := by
  simp only [bodies, List.mem_append, List.mem_map, List.mem_singleton] at hbody
  rcases hbody with ⟨f, hf, rfl⟩ | rfl
  · refine ⟨_, _, h.function_charts hf limit message hframe hpool hrun, fun site hsite => ?_⟩
    apply List.mem_append_left
    exact List.mem_flatMap.2 ⟨f, hf, List.mem_map.2 ⟨site, hsite, rfl⟩⟩
  · refine ⟨_, _, h.main_charts limit message hframe hpool hrun, fun site hsite => ?_⟩
    apply List.mem_append_right
    exact List.mem_map.2 ⟨site, hsite, rfl⟩

/-- The parameters of a function of a checked program have distinct names. -/
theorem nodup_params (hclean : p.check.diagnostics = []) {f : Function} (hf : f ∈ p.functions) :
    (f.params.map (·.name)).Nodup := by
  obtain ⟨_, _, hfunctions, _, hfound, _⟩ := tables_clean hclean
  rw [diagnostics_checkFunctions _ rfl, List.flatMap_eq_nil_iff] at hfunctions
  have hchecked := hfunctions f hf
  have hparams : p.functionTable.openScope.params f.name = f.params := by
    have hfound' : p.functionTable.openScope.function? f.name = some f.signature := hfound f hf
    simp [SymbolTable.params, hfound', Function.signature]
  simp only [Function.check, SymbolTable.enterFunction, hparams, diagnostics_bind,
    List.append_eq_nil_iff] at hchecked
  exact (nodup_of_bindParams (noteClashes_clean hchecked.1)).1

/-! ## §5 Compiled programs -/

/-- The code of a function of a checked program takes its arguments from where they were pushed. -/
theorem Clean.receives (h : p.Clean) (hclean : p.check.diagnostics = []) {f : Function}
    (hf : f ∈ p.functions) {limit : Nat} {message : String → String}
    (hframe : resources.frame = .ofParams f.params)
    (hpool : resources.pool = .ofCount config.generalRegisters)
    (hrun : (f.body.lowerBody p.check.value).run resources = .ok out) :
    ∃ rest, (bodySequence (functionLabel f.name) (out.code.flatMap (·.plain limit message))).code =
        .label (functionLabel f.name) :: .push .lr :: rest ∧ f.Receives rest := by
  obtain ⟨depths, marked, hmarked, hflow, hpermitted, _⟩ :=
    (h.function_charts hf limit message hframe hpool hrun).exists_marked
  have hsound := f.toBody_sound (writable_harmless config.generalRegisters) rfl resources out
    hframe hpool hrun
  obtain ⟨rest, hcode, hdisciplined⟩ := hsound.2.disciplined limit message (functionLabel f.name)
  refine ⟨rest, hcode, ?_, ?_, hdisciplined⟩
  · intro frame index param hparams hparam hhidden
    exact ⟨_, Frame.lookup?_param hparams (nodup_params hclean hf) hparam hhidden, rfl,
      fun sp => calleeStackPointer_add sp _ index _⟩
  · intro position depth move offset i touch hreach hi hmove htouch
    -- Below the saved link register stands the marked code, and then the return.
    rw [code_bodySequence hmarked] at hcode
    obtain rfl := (List.cons.inj (List.cons.inj hcode).2).2
    have hafter : labelsOf [.directive .ltorg] = [] := rfl
    rcases hflow.permitted hafter hpermitted hreach hi hmove htouch with hown | hparam
    · exact .inl (by omega)
    · obtain ⟨index, param, hparam, hplace, hsuits⟩ := hparam
      have hoffset : offset = depth + move + slotBytes + slotBytes * index := by
        rw [Nat.mul_add_one, Int.natCast_add, Int.natCast_mul] at hplace
        omega
      refine .inr ⟨index, param, hparam, hsuits, hoffset, fun sp => ?_⟩
      rw [hoffset]
      exact calleeStackPointer_add sp _ index _

/-- A routine calls no function. -/
theorem call_notMem_routine (message : String → String) (r : Routine) (name : String) :
    call (functionLabel name) ∉ (r.sequence message).code := by
  intro hmem
  have hsound : (Piece.support r).Sound (fun _ => True) (fun _ => False) := trivial
  have hpiece : call (functionLabel name) ∈ ((Piece.support r).sequence 0 message).code := hmem
  -- Its branches would be sound even in a program without functions.
  have hleads := Piece.leads hsound hpiece rfl
  generalize htarget : functionLabel name = target at hleads
  cases hleads with
  | inner hn => cases hn
  | @routine q hq => exact q.label_ne_functionLabel name htarget.symm
  | function hknown => exact hknown
  | library hname => exact functionLabel_ne_library hname htarget.symm

/-- The pieces of a program that are bodies are its bodies. -/
theorem exists_body {known : String → Prop} {W : Register → Prop} {assembly : Assembly}
    {pieces : List Piece} {table : SymbolTable} {label : String} {first next : Nat}
    {code : List Pseudo} (hbuilt : assembly.Built W known config pieces)
    (hlabels : pieces.filterMap Piece.bodyLabel? = (p.bodies table).map (·.label))
    (hgenerated : ∀ body ∈ p.bodies table, body.Generated config pieces)
    (hpiece : .body label first next code ∈ pieces) :
    ∃ body ∈ p.bodies table, body.label = label ∧ ∃ resources out, resources.frame = body.frame ∧
      resources.pool = .ofCount config.generalRegisters ∧ body.step.run resources = .ok out ∧
      code = out.code := by
  have hlabel : label ∈ (p.bodies table).map (·.label) := by
    rw [← hlabels]
    exact List.mem_filterMap.2 ⟨_, hpiece, rfl⟩
  obtain ⟨body, hbody, rfl⟩ := List.mem_map.1 hlabel
  obtain ⟨resources, out, hframe, hpool, hrun, hmem⟩ := hgenerated body hbody
  -- Two pieces with one name are the same piece, so the code is the generated one.
  have hsame := List.inj_on_of_nodup_map hbuilt.distinct hpiece hmem rfl
  exact ⟨body, hbody, rfl, resources, out, hframe, hpool, hrun, (Piece.body.inj hsame).2.2.2⟩

/-- A signature that the table of a checked program gives is that of a function of the program. -/
theorem Clean.exists_of_function? (h : p.Clean) {name : String} {signature : Signature}
    (hfun : p.check.value.function? name = some signature) :
    ∃ f ∈ p.functions, f.signature = signature ∧ f.name = name := by
  have hname : signature.name = name := by simpa using List.find?_some hfun
  have hmem := List.mem_of_find?_eq_some hfun
  rw [h.functions_eq] at hmem
  obtain ⟨f, hf, rfl⟩ := List.mem_map.1 hmem
  exact ⟨f, hf, rfl, hname⟩

/-- Caller and callee agree on the argument area. In the code of a program that compiles, every
function finds its parameters where a caller pushes the arguments, and accesses them as wide as they
were stored, unless it accesses an element of one without an index. Every call is one of the source:
its arguments are pushed from the frame that it is made from, and the stack pointer and the frame
are afterwards as they were before. -/
theorem argument_area_shared {text : String} (h : p.compile config = .ok text) :
    ∃ listing, p.assemble p.check.value config = .ok listing ∧ text = listing.render ∧
      (∀ f ∈ p.functions, ∃ rest,
        ⟨functionLabel f.name, .label (functionLabel f.name) :: .push .lr :: rest⟩ ∈
          listing.sequences ∧ f.Receives rest) ∧
      ∀ sequence ∈ listing.sequences, ∀ before name below,
        sequence.code = before ++ call (functionLabel name) :: below →
        ∃ f ∈ p.functions, f.name = name ∧ ∃ site, (sequence.name, site) ∈ p.callSites ∧
          site.name = name ∧ ∃ lead pushes tail,
            before = .label sequence.name :: .push .lr :: (lead ++ pushes) ∧
            below = adjustStack .add config.stackChunk (slotBytes * f.params.length) ++ tail ∧
            site.Made p.check.value config.stackChunk listing.messageLabel f lead pushes tail := by
  obtain ⟨hclean, listing, hassemble, htext⟩ := compile_eq_ok h
  have hcheck := check_clean hclean
  obtain ⟨_, assembly, pieces, rfl, hbuilt, hlabels, hgenerated⟩ :=
    assemble_generated hassemble (writable_harmless _)
  refine ⟨assembly.listing, hassemble, htext, ?_, ?_⟩
  · intro f hf
    obtain ⟨resources, out, hframe, hpool, hrun, hpiece⟩ :=
      hgenerated (f.toBody p.check.value) (by simp [bodies, List.mem_map_of_mem hf])
    obtain ⟨rest, hcode, hreceives⟩ := hcheck.receives hclean hf hframe hpool hrun
    refine ⟨rest, ?_, hreceives⟩
    rw [hbuilt.sequences, ← hcode]
    exact List.mem_map.2 ⟨_, hpiece, rfl⟩
  · intro sequence hsequence before name below hcode
    rw [hbuilt.sequences] at hsequence
    obtain ⟨piece, hpiece, rfl⟩ := List.mem_map.1 hsequence
    cases piece with
    | support r =>
      refine absurd ?_ (call_notMem_routine assembly.listing.messageLabel r name)
      rw [show (r.sequence _).code = _ from hcode]
      simp
    | body label first next code =>
      obtain ⟨body, hbody, rfl, resources, out, hframe, hpool, hrun, rfl⟩ :=
        exists_body hbuilt hlabels hgenerated hpiece
      obtain ⟨P, sites, hcharts, hsites⟩ := hcheck.body_charts hbody config.stackChunk
        assembly.listing.messageLabel hframe hpool hrun
      obtain ⟨depths, marked, hmarked, hflow, hchart⟩ := hcharts.exists_marked
      simp only [Piece.sequence, ← hmarked] at hcode
      obtain ⟨site, hsite, rfl, signature, hfun, hmade⟩ := hchart.exists_made hflow hcode
      obtain ⟨f, hf, rfl, hname⟩ := hcheck.exists_of_function? hfun
      exact ⟨f, hf, hname, site, hsites site hsite, rfl, hmade f rfl⟩

/-- A function that accesses an element of a flag without an index. -/
def bareReader : Function where
  name := "f"
  returnType := .int
  params := [⟨"b", .bool⟩]
  body := .seq {} (.println {} (.elem {} "b" [])) (.ret {} (.int {} "0"))

/-- A program that hands a flag to this function. -/
def bareProgram : Program where
  functions := [bareReader]
  body := .declare {} .int "x" (.call "f" [.bool {} true])

/-- The flag is stored as a byte where a word is loaded. -/
theorem widths_differ_bareProgram : ∃ (text : String) (listing : Listing),
    bareProgram.compile {} = .ok text ∧ text = listing.render ∧
      (∃ rest : List Instruction,
        ⟨functionLabel "f", .label (functionLabel "f") :: .push .lr :: rest⟩ ∈ listing.sequences ∧
        bareReader.Receives rest ∧
        ∃ i ∈ rest.head?, i.touch? = some (Touch.load .word, (slotBytes : Int))) ∧
      ∃ (site : CallSite) (lead pushes tail : List Instruction),
        site.Made bareProgram.check.value 1024 listing.messageLabel bareReader lead pushes tail ∧
        ∀ sp, walk sp pushes =
          some (sp - slotBytes, [(.store .byte, argumentAddress sp 1 0)]) := by
  have hassemble : (bareProgram.assemble bareProgram.check.value {}).isOk := by decide +kernel
  obtain ⟨text, htext⟩ := compile_of_assemble (by decide) (by decide) hassemble
  obtain ⟨listing, hlisting, hrender, hcallee, hcaller⟩ := argument_area_shared htext
  -- What the general statement leaves open is computed for this one program.
  have hshape : ∀ listing ∈ (bareProgram.assemble bareProgram.check.value {}).toOption,
      (∀ s ∈ listing.sequences, s.name = functionLabel "f" →
        ∃ i ∈ (s.code.drop 2).head?, i.touch? = some (Touch.load .word, (slotBytes : Int))) ∧
      ∃ s ∈ listing.sequences, call (functionLabel "f") ∈ s.code := by decide +kernel
  obtain ⟨hload, sequence, hsequence, hcall⟩ := hshape listing (by rw [hlisting]; rfl)
  refine ⟨text, listing, htext, hrender, ?_, ?_⟩
  · obtain ⟨rest, hrest, hreceives⟩ := hcallee bareReader (List.mem_singleton_self _)
    exact ⟨rest, hrest, hreceives, hload _ hrest rfl⟩
  · obtain ⟨before, below, hcode⟩ := List.append_of_mem hcall
    obtain ⟨f, hf, _, site, hsite, _, lead, pushes, tail, _, _, hmade⟩ :=
      hcaller sequence hsequence before "f" below hcode
    obtain rfl := List.mem_singleton.1 hf
    have hsites : bareProgram.callSites =
        [("main", ⟨({} : Frame).openScope 1, "f", [.bool {} true]⟩)] := rfl
    rw [hsites] at hsite
    obtain ⟨_, rfl⟩ := Prod.mk.inj (List.mem_singleton.1 hsite)
    exact ⟨_, lead, pushes, tail, hmade, hmade.pushed⟩

end Program

end ArmCompiler
