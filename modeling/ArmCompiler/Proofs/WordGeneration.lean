import ArmCompiler.Proofs.Assembling
import ArmCompiler.Proofs.BasicSteps
import ArmCompiler.Proofs.WordFrames
import Mathlib.Algebra.Group.Nat.Defs

/-!
# Generating Code with Frames in Words

Code is generated with frames without bounds. The same basic steps can be taken with a frame in
words: sizes are cut to words before they are given to the frame, and a size or a distance that the
frame answers is the number that the word stands for. The two ways agree as long as the code of a
body moves the stack pointer by fewer than 2³⁰ bytes in all, up and down. So what is shown of
generated code is, under this bound, also shown of code that is generated with frames in words. Main
statement: `Program.assemble_inWords`.

## Contents
- §1: steps in words
- §2: frames within a bound
- §3: agreement
-/

namespace ArmCompiler

open Lower

/-! ## §1 Steps in words -/

/-- What lowering uses up, with the frame in words. -/
structure WordResources where
  pool : RegisterPool
  frame : WordFrame
  nextLabel : Nat

def Resources.word (resources : Resources) : WordResources :=
  ⟨resources.pool, resources.frame.word, resources.nextLabel⟩

namespace Lower

/-- A step that is made of basic steps, taken with the frame in words: what it starts from, its
value, its code and what it leaves. -/
inductive RunsInWords :
    {α : Type} → Lower α → WordResources → α → List Pseudo → WordResources → Prop where
  | pure {α : Type} (a : α) (w : WordResources) : RunsInWords (Pure.pure a) w a [] w
  | bind {α β : Type} {step : Lower α} {next : α → Lower β} {w mid last : WordResources} {a : α}
      {b : β} {code more : List Pseudo} : RunsInWords step w a code mid →
      RunsInWords (next a) mid b more last → RunsInWords (step >>= next) w b (code ++ more) last
  | emitAll (code : List Pseudo) (w : WordResources) :
      RunsInWords (Lower.emitAll code) w () code w
  | acquire {w : WordResources} {r : Register} : w.pool.free.head? = some r →
      RunsInWords Lower.acquire w r [] { w with pool := w.pool.hold r }
  | modifyPool (change : RegisterPool → RegisterPool) (w : WordResources) :
      RunsInWords (Lower.modifyPool change) w () [] { w with pool := change w.pool }
  | freshLabel (w : WordResources) : RunsInWords Lower.freshLabel w ("L" ++ w.nextLabel.repr) []
      { w with nextLabel := w.nextLabel + 1 }
  | lookup {w : WordResources} {name : String} {offset : Int32} {ty : Ty} :
      w.frame.lookup? name = some (offset, ty) →
      RunsInWords (Lower.lookup name) w (offset.toInt, ty) [] w
  | declare {w : WordResources} {name : String} {ty : Ty} {offset : Int32} {frame : WordFrame} :
      (WordFrame.declare name ty).run w.frame = .ok offset frame →
      RunsInWords (Lower.declare name ty) w offset.toInt [] { w with frame }
  | push (width : Width) (r : Register) (w : WordResources) :
      RunsInWords (Lower.push width r) w () [.instr (.str width r (.preIndexed .sp (-slotBytes)))]
        { w with pool := w.pool.release r, frame := w.frame.pushTemp slotWord }
  | unpush (bytes : Nat) (w : WordResources) :
      RunsInWords (Lower.unpush bytes) w () [.unreserve (Int32.ofNat bytes).toInt.toNat]
        { w with frame := w.frame.popTemp (Int32.ofNat bytes) }
  | inScope {slots : Nat} {step : Lower Unit} {w last : WordResources} {code : List Pseudo} :
      RunsInWords step { w with frame := (w.frame.openScope slots).2 } () code last →
      RunsInWords (Lower.inScope slots step) w ()
        (.reserve (w.frame.openScope slots).1.toInt.toNat ::
          (code ++ [.unreserve last.frame.closeScope.1.toInt.toNat]))
        { last with frame := last.frame.closeScope.2 }
  | unwind (w : WordResources) :
      RunsInWords (getFrame >>= fun frame => Lower.emitAll [.unreserve frame.depth.toNat]) w ()
        [.unreserve w.frame.depth.toInt.toNat] w

end Lower

/-! ## §2 Frames within a bound -/

/-- By how many bytes a step moves the stack pointer, up or down. -/
def Pseudo.moves : Pseudo → Nat
  | .reserve bytes | .unreserve bytes => bytes
  | .instr (.str _ _ (.preIndexed .sp distance)) => distance.natAbs
  | .instr _ | .routine .. | .message .. => 0

/-- By how many bytes code moves the stack pointer in all. -/
def moved : List Pseudo → Nat
  | [] => 0
  | p :: code => p.moves + moved code

theorem moved_append (code more : List Pseudo) :
    moved (code ++ more) = moved code + moved more := by
  induction code with
  | nil => simp [moved]
  | cons p rest ih => simp only [List.cons_append, moved, ih, Nat.add_assoc]

namespace Frame

/-- All numbers of a frame are within a bound, and no scope has more variables than slots. -/
structure Within (frame : Frame) (n : Int) : Prop where
  depth : -n ≤ frame.depth ∧ frame.depth ≤ n
  scopes : ∀ scope ∈ frame.scopes, -n ≤ scope.base ∧ scope.base + slotBytes * scope.slots ≤ n ∧
    scope.locals.length ≤ scope.slots
  locals : ∀ scope ∈ frame.scopes, ∀ entry ∈ scope.locals,
    -n ≤ entry.2.position ∧ entry.2.position ≤ n
  params : ∀ entry ∈ frame.params, -n ≤ entry.2.position ∧ entry.2.position ≤ n

namespace Within

variable {frame frame' : Frame} {n m : Int}

theorem mono (h : frame.Within n) (hle : n ≤ m) : frame.Within m := by
  refine ⟨by have := h.depth; omega, fun scope hscope => ?_, fun scope hscope entry hentry => ?_,
    fun entry hentry => ?_⟩
  · have := h.scopes scope hscope
    omega
  · have := h.locals scope hscope entry hentry
    omega
  · have := h.params entry hentry
    omega

theorem pushTemp (h : frame.Within n) (bytes : Nat) :
    (frame.pushTemp bytes).Within (n + bytes) := by
  have hdepth := h.depth
  have hwide := h.mono (m := n + bytes) (by omega)
  exact ⟨by simp only [Frame.pushTemp]; omega, hwide.scopes, hwide.locals, hwide.params⟩

theorem popTemp (h : frame.Within n) (bytes : Nat) :
    (frame.popTemp bytes).Within (n + bytes) := by
  have hdepth := h.depth
  have hwide := h.mono (m := n + bytes) (by omega)
  exact ⟨by simp only [Frame.popTemp]; omega, hwide.scopes, hwide.locals, hwide.params⟩

theorem openScope (h : frame.Within n) (slots : Nat) :
    (frame.openScope slots).Within (n + slotBytes * slots) := by
  have hbytes : (0 : Int) ≤ slotBytes * slots := Int.mul_nonneg (by omega) (by omega)
  have hwide := h.mono (m := n + slotBytes * slots) (by omega)
  have hdepth := h.depth
  refine ⟨by simp only [Frame.openScope]; omega, ?_, ?_, hwide.params⟩
  · rw [Frame.openScope, List.forall_mem_cons]
    exact ⟨⟨by simp only; omega, by simp only; omega, by simp⟩, hwide.scopes⟩
  · rw [Frame.openScope, List.forall_mem_cons]
    exact ⟨by simp, hwide.locals⟩

theorem scopeBytes_nonneg (h : frame.Within n) : 0 ≤ frame.scopeBytes := by
  cases hscopes : frame.scopes with
  | nil => simp [scopeBytes, hscopes]
  | cons scope outer =>
    have hscope := h.scopes scope (by simp [hscopes])
    simp only [scopeBytes, hscopes, slotBytes]
    omega

theorem closeScope (h : frame.Within n) : frame.closeScope.Within (n + frame.scopeBytes) := by
  have hbytes := h.scopeBytes_nonneg
  have hdepth := h.depth
  have hwide := h.mono (m := n + frame.scopeBytes) (by omega)
  have hsub : ∀ scope ∈ frame.scopes.tail, scope ∈ frame.scopes := fun _ => List.mem_of_mem_tail
  refine ⟨by simp only [Frame.closeScope]; omega, fun scope hscope => ?_, fun scope hscope => ?_,
    hwide.params⟩
  · exact hwide.scopes scope (hsub _ hscope)
  · exact hwide.locals scope (hsub _ hscope)

/-- A declared variable lies in a slot of its scope. -/
theorem declare (h : frame.Within n) {name : String} {ty : Ty} {offset : Int}
    (hdeclare : frame.declare name ty = .ok (offset, frame')) : frame'.Within n := by
  obtain ⟨scope, outer, hscopes, hroom, -, rfl⟩ := declare_eq_ok.1 hdeclare
  have hinner := h.scopes scope (by simp [hscopes])
  have hlocals := h.locals scope (by simp [hscopes])
  have houter : ∀ scope ∈ outer, scope ∈ frame.scopes := fun _ hscope => by simp [hscopes, hscope]
  refine ⟨h.depth, ?_, ?_, h.params⟩
  · rw [List.forall_mem_cons]
    refine ⟨?_, fun scope hscope => h.scopes scope (houter _ hscope)⟩
    simp only [Scope.add, List.length_cons]
    omega
  · rw [List.forall_mem_cons]
    refine ⟨?_, fun scope hscope => h.locals scope (houter _ hscope)⟩
    rw [Scope.add, List.forall_mem_cons]
    refine ⟨?_, hlocals⟩
    simp only [Scope.next, slotBytes] at hinner ⊢
    omega

/-- The distance of a variable is within twice the bound. -/
theorem offset (h : frame.Within n) {name : String} {l : Local} (hl : frame.local? name = some l) :
    -(2 * n) ≤ frame.offset l ∧ frame.offset l ≤ 2 * n := by
  have hposition : -n ≤ l.position ∧ l.position ≤ n := by
    rcases Option.or_eq_some_iff.1 hl with hlocal | ⟨-, hparam⟩
    · obtain ⟨scope, hscope, hlookup⟩ := List.exists_of_findSome?_eq_some hlocal
      exact h.locals scope hscope _ (mem_of_lookup hlookup)
    · exact h.params _ (mem_of_lookup hparam)
  have hdepth := h.depth
  simp only [Frame.offset]
  omega

end Within

theorem ofParams_within (params : List Param) :
    (ofParams params).Within (slotBytes * params.length) := by
  have hbytes : (0 : Int) ≤ slotBytes * params.length := Int.mul_nonneg (by omega) (by omega)
  refine ⟨by simp only [ofParams]; omega, by simp [ofParams], by simp [ofParams], ?_⟩
  intro entry hentry
  obtain ⟨index, param, hparam, rfl⟩ := mem_ofParams.1 hentry
  have hindex := (List.getElem?_eq_some_iff.1 hparam).1
  simp only [paramLocal, slotBytes]
  omega

end Frame

/-! ## §3 Agreement -/

namespace Lower

variable {α β : Type}

/-- A step that, once it succeeds, does the same with the frame in words, as long as the bound of
the frame and what the code moves the stack pointer by make fewer than 2³⁰ bytes. -/
structure InWords (step : Lower α) : Prop where
  agree : ∀ {start : Resources} {out : Lowered α} {n : Int}, step.run start = .ok out →
    start.frame.Within n → n + moved out.code < 2 ^ 30 →
    step.RunsInWords start.word out.value out.code out.resources.word ∧
      out.resources.frame.Within (n + moved out.code)

namespace InWords

/-- A step that leaves the frame alone. -/
theorem always {step : Lower α} (out : Resources → Lowered α)
    (hrun : ∀ start, step.run start = .ok (out start))
    (hout : ∀ start, (out start).resources.frame = start.frame ∧
      step.RunsInWords start.word (out start).value (out start).code (out start).resources.word) :
    step.InWords := by
  constructor
  intro start _ n hok hwithin _
  rw [hrun, Except.ok.injEq] at hok
  subst hok
  obtain ⟨hframe, hruns⟩ := hout start
  exact ⟨hruns, hframe ▸ hwithin.mono (by omega)⟩

/-- What the two steps move the stack pointer by adds up. -/
theorem bind {step : Lower α} {next : α → Lower β} (hstep : step.InWords)
    (hnext : ∀ a, (next a).InWords) : (step >>= next).InWords := by
  constructor
  intro start out n hrun hwithin hsmall
  obtain ⟨first, second, hfirst, hsecond, rfl⟩ := run_bind_eq_ok.1 hrun
  simp only [moved_append] at hsmall ⊢
  obtain ⟨hruns, hmid⟩ := hstep.agree hfirst hwithin (by omega)
  obtain ⟨hruns', hlast⟩ := (hnext first.value).agree hsecond hmid (by omega)
  exact ⟨hruns.bind hruns', hlast.mono (by omega)⟩

theorem acquire : Lower.acquire.InWords := by
  constructor
  intro start out n hrun hwithin _
  obtain ⟨r, hhead, rfl⟩ := run_acquire_eq_ok.1 hrun
  exact ⟨.acquire hhead, hwithin.mono (by omega)⟩

/-- The distance of a variable is the difference of two numbers within the bound. -/
theorem lookup (name : String) : (Lower.lookup name).InWords := by
  constructor
  intro start out n hrun hwithin hsmall
  rw [run_lookup, run_ofExcept_eq_ok] at hrun
  obtain ⟨⟨offset, ty⟩, hfound, rfl⟩ := hrun
  obtain ⟨l, hl, rfl, rfl⟩ := Frame.find_eq_ok.1 hfound
  have hrange := hwithin.offset hl
  have hword : start.word.frame.lookup? name =
      some (Int32.ofInt (start.frame.offset l), l.ty) := by
    rw [Resources.word, Frame.word_lookup?, Frame.lookup?, hl]
    rfl
  have hruns := RunsInWords.lookup hword
  rw [Int32.toInt_ofInt_of_le (by omega) (by omega)] at hruns
  exact ⟨hruns, hwithin.mono (by omega)⟩

/-- The slots of a scope are within the bound, so words tell whether one is left. -/
theorem declare (name : String) (ty : Ty) : (Lower.declare name ty).InWords := by
  constructor
  intro start out n hrun hwithin hsmall
  obtain ⟨offset, frame, hdeclare, rfl⟩ := run_declare_eq_ok.1 hrun
  have hafter := hwithin.declare hdeclare
  obtain ⟨scope, outer, hscopes, hroom, rfl, rfl⟩ := Frame.declare_eq_ok.1 hdeclare
  have hdepth := hwithin.depth
  have hscope := hwithin.scopes scope (by simp [hscopes])
  have hnext : (scope.next ty).position = scope.base + slotBytes * (scope.locals.length + 1) := rfl
  have hadd : start.frame.add name ty =
      { start.frame with scopes := scope.add name ty :: outer } := by
    simp only [Frame.add, hscopes]
  have hfits : ¬ Int32.ofInt (scope.base + slotBytes * scope.slots) <
      Int32.ofInt (scope.next ty).position := by
    simp only [slotBytes] at *
    rw [Frame.ofInt_lt_ofInt (by omega) (by omega)]
    omega
  have hword := Frame.declare_word_cons hscopes name ty
  rw [if_neg hfits, hadd] at hword
  have hruns := RunsInWords.declare (w := start.word) hword
  have hoffset : -2 ^ 31 ≤ start.frame.offset (scope.next ty) ∧
      start.frame.offset (scope.next ty) < 2 ^ 31 := by
    simp only [Frame.offset, slotBytes] at *
    omega
  rw [Int32.toInt_ofInt_of_le hoffset.1 hoffset.2] at hruns
  exact ⟨hruns, hafter.mono (by omega)⟩

theorem push (width : Width) (r : Register) : (Lower.push width r).InWords := by
  constructor
  intro start out n hrun hwithin _
  rw [run_push, Except.ok.injEq] at hrun
  subst hrun
  have hword : start.word.frame.pushTemp slotWord = (start.frame.pushTemp slotBytes).word := by
    rw [Frame.slotWord_eq]
    exact Frame.word_pushTemp _ _
  have hruns := RunsInWords.push width r start.word
  rw [hword] at hruns
  exact ⟨hruns, hwithin.pushTemp slotBytes⟩

theorem unpush (bytes : Nat) : (Lower.unpush bytes).InWords := by
  constructor
  intro start out n hrun hwithin hsmall
  rw [run_unpush, Except.ok.injEq] at hrun
  subst hrun
  have hdepth := hwithin.depth
  replace hsmall : n + bytes < 2 ^ 30 := hsmall
  have hcut : Int32.ofNat bytes = Int32.ofInt bytes := Int32.ofInt_eq_ofNat.symm
  have hword : start.word.frame.popTemp (Int32.ofInt bytes) = (start.frame.popTemp bytes).word :=
    Frame.word_popTemp _ _
  have hruns := RunsInWords.unpush bytes start.word
  rw [hcut, Int32.toInt_ofInt_of_le (by omega) (by omega), Int.toNat_natCast, hword] at hruns
  exact ⟨hruns, hwithin.popTemp bytes⟩

/-- The bytes of a scope are moved by when it is opened and when it is closed. -/
theorem inScope {slots : Nat} {step : Lower Unit} (hstep : step.InWords) :
    (Lower.inScope slots step).InWords := by
  constructor
  intro start out n hrun hwithin hsmall
  obtain ⟨inner, hinner, rfl⟩ := run_inScope_eq_ok.1 hrun
  have hdepth := hwithin.depth
  have hreserved : (0 : Int) ≤ slotBytes * slots := Int.mul_nonneg (by omega) (by omega)
  simp only [moved, moved_append, Pseudo.moves, Int.natCast_add, Int.natCast_mul] at hsmall ⊢
  obtain ⟨hruns, hlast⟩ := hstep.agree hinner (hwithin.openScope slots) (by omega)
  have hbytes := hlast.scopeBytes_nonneg
  have hopen : start.word.frame.openScope slots =
      (Int32.ofInt (slotBytes * slots : Nat), (start.frame.openScope slots).word) :=
    Frame.word_openScope _ _
  have hclose : inner.resources.word.frame.closeScope =
      (Int32.ofInt inner.resources.frame.scopeBytes, inner.resources.frame.closeScope.word) :=
    Frame.word_closeScope _
  have hinWords : step.RunsInWords { start.word with frame := (start.word.frame.openScope slots).2 }
      () inner.code inner.resources.word := by
    rw [hopen]
    exact hruns
  have hscoped := hinWords.inScope
  rw [hopen, hclose, Int32.toInt_ofInt_of_le (by omega) (by omega), Int.toNat_natCast,
    Int32.toInt_ofInt_of_le (by omega) (by omega)] at hscoped
  exact ⟨hscoped, hlast.closeScope.mono (by omega)⟩

theorem unwind :
    (getFrame >>= fun frame => Lower.emitAll [.unreserve frame.depth.toNat]).InWords := by
  constructor
  intro start out n hrun hwithin hsmall
  obtain rfl : _ = out := Except.ok.inj hrun
  have hdepth := hwithin.depth
  change n + moved [.unreserve start.frame.depth.toNat] < 2 ^ 30 at hsmall
  have hruns := RunsInWords.unwind start.word
  have hword : start.word.frame.depth.toInt = start.frame.depth :=
    Int32.toInt_ofInt_of_le (by omega) (by omega)
  rw [hword] at hruns
  exact ⟨hruns, hwithin.mono (by omega)⟩

end InWords

/-- Whatever is made of basic steps can be taken in words. -/
theorem Parallel.inWords {ρ : String → String} {step step' : Lower α} (h : step.Parallel ρ step') :
    step.InWords := by
  induction h with
  | bind _ _ ih ihNext => exact ih.bind ihNext
  | fail _ => exact ⟨fun hrun => by cases hrun⟩
  | acquire => exact .acquire
  | lookup name => exact .lookup name
  | declare name ty => exact .declare name ty
  | push width r => exact .push width r
  | unpush bytes => exact .unpush bytes
  | inScope slots _ ih => exact ih.inScope
  | unwind => exact .unwind
  | pure a => exact .always _ (run_pure a) fun _ => ⟨rfl, .pure a _⟩
  | emitAll code => exact .always _ (run_emitAll code) fun _ => ⟨rfl, .emitAll code _⟩
  | @modifyPool change _ =>
    exact .always _ (run_modifyPool change) fun _ => ⟨rfl, .modifyPool change _⟩
  | freshLabel => exact .always _ run_freshLabel fun _ => ⟨rfl, .freshLabel _⟩

end Lower

namespace Program

variable {p : Program} {table : SymbolTable} {body : Body}

theorem bodies_inWords (hbody : body ∈ p.bodies table) : body.step.InWords := by
  simp only [bodies, List.mem_append, List.mem_map, List.mem_singleton] at hbody
  rcases hbody with ⟨f, _, rfl⟩ | rfl
  · exact (f.body.lowerBody_parallel (ρ := id) table).inWords
  · have hmain := (p.body.lowerBody_parallel (ρ := id) table).inWords
    exact hmain.bind fun _ => (Parallel.emit (ρ := id) _).inWords

/-- A body starts with a frame of its parameters, in words too. -/
theorem bodies_frame (hbody : body ∈ p.bodies table) :
    ∃ params, body.frame = .ofParams params ∧ body.frame.word = .ofParams params := by
  simp only [bodies, List.mem_append, List.mem_map, List.mem_singleton] at hbody
  rcases hbody with ⟨f, _, rfl⟩ | rfl
  · exact ⟨f.params, rfl, (Frame.word_ofParams f.params).symm⟩
  · exact ⟨[], rfl, rfl⟩

/-- When a program was assembled, the code of each of its bodies was generated. If it moves the
stack pointer by fewer than 2³⁰ bytes, parameters included, it is also generated with a frame in
words. -/
theorem assemble_inWords {config : Config} {listing : Listing}
    (h : p.assemble table config = .ok listing) (hbody : body ∈ p.bodies table) :
    ∃ params start out, start.frame = .ofParams params ∧ body.step.run start = .ok out ∧
      (slotBytes * params.length + moved out.code < 2 ^ 30 →
        body.step.RunsInWords { start.word with frame := .ofParams params } () out.code
          out.resources.word) := by
  obtain ⟨start, hframe, _, out, hrun⟩ := assemble_run h body hbody
  obtain ⟨params, hparams, hword⟩ := bodies_frame hbody
  refine ⟨params, start, out, hframe.trans hparams, hrun, fun hsmall => ?_⟩
  have hwithin : start.frame.Within (slotBytes * params.length) := by
    rw [hframe, hparams]
    exact Frame.ofParams_within params
  have hruns := ((bodies_inWords hbody).agree hrun hwithin (by omega)).1
  rw [Resources.word, hframe, hword] at hruns
  exact hruns

end Program

end ArmCompiler
