import ArmCompiler.Proofs.Heap.Allocator
import ArmCompiler.Proofs.Heap.Values

/-!
# Pairs in Memory

A pair is a block of two words, and each of them holds the address of a box: another block, of one
word, with the value of a side. The code that builds a pair, the code that finds the box of a side
and the code that loads or stores through it agree on this layout, whichever side is computed first
and whatever the types of the sides are. A null pair is found out before anything is accessed
through it. Main statement: `Lower.pair_layout`.

## Contents
- §1: the layout
- §2: finding a box
- §3: building a pair
- §4: assigning to a side
- §5: agreement
-/

namespace ArmCompiler

open Instruction Lower Routine

/-! ## §1 The layout -/

/-- The word of a pair that holds the address of a side's box. -/
def Side.place (side : Side) (p : Word) : Word :=
  p + BitVec.ofInt 32 (side.pick 0 (slotBytes : Int))

theorem Side.block_of_place {side : Side} {p a : Word} (h : Block (side.place p) 4 a) :
    Block p 8 a := by
  cases side with
  | fst =>
    have h : Block (p + BitVec.ofNat 32 0) 4 a := h
    exact h.of_sub (by decide) (by decide)
  | snd =>
    have h : Block (p + BitVec.ofNat 32 4) 4 a := h
    exact h.of_sub (by decide) (by decide)

/-- The two words of a pair do not overlap. -/
theorem Side.places_apart {p a : Word} (h : Block (Side.fst.place p) 4 a) :
    ¬ Block (Side.snd.place p) 4 a := by
  have h : Block (p + BitVec.ofNat 32 0) 4 a := h
  have hapart : ¬ Block (p + BitVec.ofNat 32 4) 4 a := Block.apart (by decide) (by decide) h
  exact hapart

/-- The bytes of a pair and its boxes. -/
def InPair (p : Word) (box : Side → Word) (a : Word) : Prop :=
  Block p 8 a ∨ ∃ side, Block (box side) 4 a

/-- A pair in live memory, with the addresses of its boxes and what they contain. -/
structure Arena.HoldsPair (arena : Arena) (m : Machine) (p : Word) (box content : Side → Word) :
    Prop where
  nonnull : p ≠ 0
  live : ∀ a, InPair p box a → arena.live m a = true
  address : ∀ side, m.load .word (side.place p) = box side
  content : ∀ side, m.load .word (box side) = content side
  box_apart : ∀ side a, Block (box side) 4 a → ¬ Block p 8 a
  boxes_apart : ∀ a, Block (box .fst) 4 a → ¬ Block (box .snd) 4 a

namespace Arena.HoldsPair

variable {arena : Arena} {m m' : Machine} {p : Word} {box content : Side → Word}

theorem read_address (h : arena.HoldsPair m p box content) (side : Side) :
    arena.read m .word (side.place p) = .ok (box side) :=
  read_eq_ok.2 ⟨fun a ha => h.live a (.inl (Side.block_of_place ha)), h.address side⟩

theorem read_content (h : arena.HoldsPair m p box content) (side : Side) :
    arena.read m .word (box side) = .ok (content side) :=
  read_eq_ok.2 ⟨fun a ha => h.live a (.inr ⟨side, ha⟩), h.content side⟩

/-- The box of one side does not overlap that of the other. -/
theorem apart_of_ne (h : arena.HoldsPair m p box content) {side side' : Side} (hne : side ≠ side')
    {a : Word} (ha : Block (box side) 4 a) : ¬ Block (box side') 4 a := by
  cases side <;> cases side'
  · exact absurd rfl hne
  · exact h.boxes_apart a ha
  · exact fun ha' => h.boxes_apart a ha' ha
  · exact absurd rfl hne

/-- A store to a box replaces what one side contains. -/
theorem store (h : arena.HoldsPair m p box content) (side : Side) (w : Word) :
    arena.HoldsPair (m.store (box side) w .word) p box (Function.update content side w) where
  nonnull := h.nonnull
  live a ha := by
    rw [live_store fun x hx => h.live x (.inr ⟨side, hx⟩)]
    exact h.live a ha
  address side' := by
    rw [Machine.load_store_of_apart fun x hx hbox =>
      h.box_apart side x hbox (Side.block_of_place hx)]
    exact h.address side'
  content side' := by
    by_cases hside : side' = side
    · subst hside
      rw [Machine.load_store_self, Function.update_self]
      rfl
    · rw [Machine.load_store_of_apart fun x hx => h.apart_of_ne hside hx,
        Function.update_of_ne hside]
      exact h.content side'
  box_apart := h.box_apart
  boxes_apart := h.boxes_apart

/-- A pair stays as it is while its own bytes do. -/
theorem of_same (h : arena.HoldsPair m p box content)
    (hsame : ∀ a, InPair p box a → arena.live m' a = true ∧ m'.memory a = m.memory a) :
    arena.HoldsPair m' p box content where
  nonnull := h.nonnull
  live a ha := (hsame a ha).1
  address side := by
    rw [← h.address side]
    exact Machine.load_congr_block fun x hx => (hsame x (.inl (Side.block_of_place hx))).2
  content side := by
    rw [← h.content side]
    exact Machine.load_congr_block fun x hx => (hsame x (.inr ⟨side, hx⟩)).2
  box_apart := h.box_apart
  boxes_apart := h.boxes_apart

theorem extended (h : arena.HoldsPair m p box content) (hextends : arena.Extends m m') :
    arena.HoldsPair m' p box content :=
  h.of_same fun a ha => ⟨hextends.live a (h.live a ha), hextends.memory a (h.live a ha)⟩

end Arena.HoldsPair

/-! ## §2 Finding a box -/

section Reading

variable {x : Setting} {arena : Arena} {texts : String → String} {start : Resources} {m : Machine}
  {which : Side} {e : Expr}

/-- The address of a box is loaded from the pair, unless that is null. -/
theorem Lower.sideAddress_evaluates (henv : x.env.Linked arena texts)
    (hsp : m.regs .sp = arena.sp) :
    (sideAddress which e).Evaluates x arena start.pool.Spare id start m
      (e.valueIn arena x.message start.frame m >>= fun p =>
        if p = 0 then .error .error else arena.read m .word (which.place p)) := by
  refine .bind ((e.delivers henv start.frame).evaluates rfl hsp) (e.lower_takes start)
    (fun _ => id) ?_
  rintro r _ m₁ ⟨hr, rfl⟩ h₁ hknown
  refine .bind (executes_emit_next (Instruction.exec_move (by decide) r) ?_)
  let given := m₁.set .r0 (m₁.regs r)
  have h0 : given.regs .r0 = m₁.regs r := m₁.regs_set_self ..
  have hsp' : given.regs .sp = arena.sp := (h₁.regs _ start.pool.not_spare_sp).trans hsp
  have hgiven : m₁.Spares arena start.pool.Spare given := .set (.inr (by decide)) _
  -- The check sees the address in `r0`. The address itself waits in a register that the check does
  -- not write.
  by_cases hzero : m₁.regs r = 0
  · have hnone := (henv.routines _).eq_none ((henv.nullPointer hsp').1 (h0.trans hzero))
    rw [id, if_pos hzero]
    exact .bind (executes_call_none rfl hnone ⟨rfl, loadsOnly_nil⟩)
  · obtain ⟨passed, hcheck, hpassed⟩ := (henv.nullPointer hsp').2 (by rwa [h0])
    have hpassed' : m₁.Spares arena start.pool.Spare passed :=
      hgiven.trans (hpassed.mono fun s hs => hs ▸ .inr (by decide))
    have hvalue : passed.regs r = m₁.regs r := by
      have hgeneral := RegisterPool.general_of_mem_free hr
      have hr0 : r ≠ .r0 := Register.ne_of_general hgeneral (by decide)
      rw [hpassed.regs r (ne_pc_of_mem_free hr), Machine.regs_set_of_ne _ _ _ _ hr0]
    have hload := @load_evaluates x arena start.pool.Spare (start.hold r) passed .word r r
      (which.pick 0 (slotBytes : Int)) (ne_pc_of_mem_free hr) (.inl hr)
    have hext := (h₁.trans hpassed').extended start.pool.not_spare_sp
    rw [id, if_neg hzero] at hknown ⊢
    rw [hvalue] at hload
    have hloaded : (do emit (load r (.offset r (which.pick 0 (slotBytes : Int)))); pure r
        : Lower Register).Evaluates x arena start.pool.Spare id (start.hold r) passed
          (arena.read m .word (which.place (m₁.regs r))) := by
      refine (hload.congr hext.read_eq).bind_silent fun _ _ out hrun => ?_
      cases hrun
      exact ⟨rfl, rfl⟩
    refine .bind (executes_call_some rfl hcheck ?_)
    refine (hloaded hknown).imp ?_ fun _ _ => id
    rintro s after m₂ accesses ⟨hspares, hpost⟩
    exact ⟨hpassed'.trans hspares, hpost⟩

variable {p : Word} {box content : Side → Word}

theorem Lower.sideAddress_of_holds (henv : x.env.Linked arena texts) (hsp : m.regs .sp = arena.sp)
    (hvalue : e.valueIn arena x.message start.frame m = .ok p)
    (hpair : arena.HoldsPair m p box content) :
    (sideAddress which e).Evaluates x arena start.pool.Spare id start m (.ok (box which)) := by
  refine (sideAddress_evaluates henv hsp).congr fun _ => ?_
  rw [hvalue, ← hpair.read_address which]
  exact if_neg hpair.nonnull

/-- Reading a side of a pair gives what its box contains. -/
theorem Rhs.side_evaluates (henv : x.env.Linked arena texts) (hsp : m.regs .sp = arena.sp)
    {table : SymbolTable} {ty : Ty} (hvalue : e.valueIn arena x.message start.frame m = .ok p)
    (hpair : arena.HoldsPair m p box content) :
    ((Rhs.side which e).lower table ty).Evaluates x arena start.pool.Spare id start m
      (.ok (content which)) := by
  have hread : (.ok (box which) >>= fun b => arena.read m .word b) = .ok (content which) :=
    hpair.read_content which
  rw [← hread]
  refine .bind (sideAddress_of_holds henv hsp hvalue hpair) (sideAddress_takes which e)
    (fun _ => id) ?_
  rintro r _ m' ⟨hr, rfl⟩ hspares
  exact follow_evaluates hr (hspares.extended start.pool.not_spare_sp)

/-- With a null pair the check ends the program. Nothing was accessed but what the code of the pair
itself accesses. -/
theorem Lower.sideAddress_of_null (henv : x.env.Linked arena texts) (hsp : m.regs .sp = arena.sp)
    (hnull : e.valueIn arena x.message start.frame m = .ok 0) :
    (sideAddress which e).Executes x start m (fun _ _ _ _ => False) fun m' accesses =>
      m'.regs .r0 = 0 ∧ checkNullPointer.EndsProgram texts m' ∧
        ∀ own, e.lower.run start = .ok own → accesses = x.accesses own.code m := by
  refine .bind ((Expr.lower_executes henv hsp hnull).and_accesses.imp ?_ fun _ _ => False.elim)
  rintro r _ m₁ accesses ⟨⟨⟨hr, rfl⟩, h₁, hzero, _⟩, hown⟩
  refine .bind (executes_emit_next (Instruction.exec_move (by decide) r) ?_)
  have h0 : (m₁.set .r0 (m₁.regs r)).regs .r0 = 0 := by rw [Machine.regs_set_self, hzero]
  have hsp' : (m₁.set .r0 (m₁.regs r)).regs .sp = arena.sp :=
    (h₁.regs _ start.pool.not_spare_sp).trans hsp
  have hends := (henv.nullPointer hsp').1 h0
  have hnone := (henv.routines .checkNullPointer).eq_none hends
  refine .bind (executes_call_none rfl hnone ⟨h0, hends, fun own hrun => ?_⟩)
  simpa [move, access?] using hown own hrun

theorem accesses_failIf {cond : Condition} {text : String} {rest : List Instruction}
    (h : cond.holds m.flags = true) : noCalls.accesses (failIf cond text ++ rest) m = [] := by
  simp [failIf, loadLabelIf, callIf, Environment.accesses, access?, Address.target?, exec,
    Machine.guard, h, Machine.write, noCalls]

/-- The check itself saves the link register and accesses nothing else. -/
theorem accesses_nullCheck (texts : String → String) (h : m.regs .r0 = 0) :
    noCalls.accesses (checkNullPointer.sequence texts).code m =
      [⟨true, m.regs .sp - 4, .word⟩] := by
  have hcode : (checkNullPointer.sequence texts).code = [.label checkNullPointer.label, .push .lr,
      .cmp .r0 (.imm 0)] ++ failIf .eq (texts nullReferenceText) ++ [.pop .pc] := rfl
  have hzero : Condition.eq.holds (m.saved.compared (m.regs .r0) 0).flags = true := by
    rw [Condition.holds, Machine.flags_compared, compareFlags_zero, h]
    rfl
  have hsaved : noCalls.run [.label checkNullPointer.label, .push .lr, .cmp .r0 (.imm 0)] m =
      .finished (m.saved.compared (m.regs .r0) 0) := by
    have hpush : (Instruction.push .lr).exec m = .next m.saved := rfl
    rw [Environment.run_next rfl, Environment.run_next hpush, Environment.run_next (exec_cmp ..),
      m.regs_saved (by decide)]
    rfl
  rw [hcode, List.append_assoc, Environment.accesses_append, hsaved]
  dsimp only
  rw [accesses_failIf hzero, List.append_nil]
  simp [Environment.accesses, access?, exec]

end Reading

/-! ## §3 Building a pair -/

/-- A side is stored: a new box contains its value, and the pair holds the address of the box. -/
structure Arena.StoresSide (arena : Arena) (m m' : Machine) (p : Word) (side : Side)
    (box w : Word) : Prop where
  symbols : m'.symbols = m.symbols
  regs : ∀ r, ¬ r.Scratch → m'.regs r = m.regs r
  live : ∀ a, arena.live m a = true → arena.live m' a = true
  memory : ∀ a, arena.live m a = true → ¬ Block (side.place p) 4 a → m'.memory a = m.memory a
  box_new : ∀ a, Block box 4 a → arena.live m a = false
  box_live : ∀ a, Block box 4 a → arena.live m' a = true
  address : m'.load .word (side.place p) = box
  content : m'.load .word box = w

/-- The two stores that follow an allocation. -/
theorem Arena.Grants.storesSide {arena : Arena} {m m' : Machine} {p : Word} {side : Side}
    (h : arena.Grants 4 m m') (hlive : ∀ a, Block p 8 a → arena.live m a = true) (w : Word) :
    arena.StoresSide m
      ((m'.store (m'.regs .r0) w .word).store (side.place p) (m'.regs .r0) .word) p side
      (m'.regs .r0) w := by
  generalize hbox : m'.regs .r0 = box
  have hplace (a : Word) (ha : Block (side.place p) 4 a) : arena.live m a = true :=
    hlive a (Side.block_of_place ha)
  have hnew (a : Word) (ha : Block box 4 a) : arena.live m a = false :=
    h.not_live_before (hbox ▸ ha)
  have hgiven (a : Word) (ha : Block box 4 a) : arena.live m' a = true :=
    h.live_after (hbox ▸ ha)
  have hstored : arena.live (m'.store box w .word) = arena.live m' := Arena.live_store hgiven
  have hstored' : arena.live ((m'.store box w .word).store (side.place p) box .word) =
      arena.live m' := by
    rw [Arena.live_store, hstored]
    intro a ha
    rw [hstored]
    exact h.extended.live a (hplace a ha)
  -- The box was free when the pair was in use, so writing the pair does not change the box.
  have hapart (a : Word) (ha : Block box 4 a) : ¬ Block (side.place p) 4 a := by
    intro ha'
    have hfalse := hnew a ha
    simp [hplace a ha'] at hfalse
  constructor
  case symbols => simp [h.symbols]
  case regs =>
    intro r hr
    rw [Machine.regs_store, Machine.regs_store, h.regs r hr]
  case live =>
    intro a ha
    rw [hstored']
    exact h.extended.live a ha
  case memory =>
    intro a ha hother
    have hbytes : ¬ Block box 4 a := by
      intro ha'
      simp [hnew a ha'] at ha
    rw [Machine.memory_store_of_not_block hother, Machine.memory_store_of_not_block hbytes]
    exact h.memory a ha
  case box_new => exact hnew
  case box_live =>
    intro a ha
    rw [hstored']
    exact hgiven a ha
  case address => exact Machine.load_store_self _ _ _ .word
  case content =>
    rw [Machine.load_store_of_apart hapart]
    exact Machine.load_store_self _ _ _ .word

/-- Two sides stored in a block that is not null make a pair. -/
theorem Arena.StoresSide.holdsPair {arena : Arena} {m₀ m m₁ m₂ : Machine} {p b c v w : Word}
    (hnonnull : p ≠ 0) (hnew : ∀ a, Block p 8 a → arena.live m₀ a = false)
    (hlive : ∀ a, Block p 8 a → arena.live m a = true) (hextends : arena.Extends m₀ m)
    (h₁ : arena.StoresSide m m₁ p .fst b v) (h₂ : arena.StoresSide m₁ m₂ p .snd c w) :
    arena.HoldsPair m₂ p (·.pick b c) (·.pick v w) ∧ arena.Extends m₀ m₂ ∧
      ∀ a, InPair p (·.pick b c) a → arena.live m₀ a = false := by
  -- What was live when a box was new is no byte of that box.
  have hold {m : Machine} {box a : Word} (hbox : ∀ a, Block box 4 a → arena.live m a = false)
      (ha : arena.live m a = true) : ¬ Block box 4 a := by
    intro hblock
    simp [hbox a hblock] at ha
  have hlive₁ (a : Word) (ha : Block p 8 a) : arena.live m₁ a = true := h₁.live a (hlive a ha)
  have hlive₂ (a : Word) (ha : arena.live m₀ a = true) : arena.live m₂ a = true :=
    h₂.live a (h₁.live a (hextends.live a ha))
  have hfst (a : Word) (ha : Block b 4 a) : ¬ Block p 8 a := fun hp =>
    hold h₁.box_new (hlive a hp) ha
  have hsnd (a : Word) (ha : Block c 4 a) : ¬ Block p 8 a := fun hp =>
    hold h₂.box_new (hlive₁ a hp) ha
  -- What the first side stored is not changed by storing the second.
  have hload {a : Word} (halive : ∀ x, Block a 4 x → arena.live m₁ x = true)
      (hapart : ∀ x, Block a 4 x → ¬ Block (Side.snd.place p) 4 x) :
      m₂.load .word a = m₁.load .word a :=
    Machine.load_congr_block fun x hx => h₂.memory x (halive x hx) (hapart x hx)
  refine ⟨⟨hnonnull, ?_, ?_, ?_, ?_, ?_⟩, ⟨?_, ?_, hlive₂, ?_⟩, ?_⟩
  · rintro a (ha | ⟨side, ha⟩)
    · exact h₂.live a (hlive₁ a ha)
    · cases side with
      | fst => exact h₂.live a (h₁.box_live a ha)
      | snd => exact h₂.box_live a ha
  · intro side
    cases side with
    | fst =>
      rw [hload (fun x hx => hlive₁ x (Side.block_of_place hx)) fun x => Side.places_apart]
      exact h₁.address
    | snd => exact h₂.address
  · intro side
    cases side with
    | fst =>
      refine (hload h₁.box_live fun x hx hplace => ?_).trans h₁.content
      exact hfst x hx (Side.block_of_place hplace)
    | snd => exact h₂.content
  · intro side a ha
    cases side with
    | fst => exact hfst a ha
    | snd => exact hsnd a ha
  · exact fun a ha => hold h₂.box_new (h₁.box_live a ha)
  · rw [h₂.symbols, h₁.symbols, hextends.symbols]
  · rw [h₂.regs _ (by decide), h₁.regs _ (by decide), hextends.sp]
  · intro a ha
    have hother (side : Side) : ¬ Block (side.place p) 4 a := fun hplace => by
      simp [hnew a (Side.block_of_place hplace)] at ha
    have ha₁ := hextends.live a ha
    rw [h₂.memory a (h₁.live a ha₁) (hother .snd), h₁.memory a ha₁ (hother .fst),
      hextends.memory a ha]
  · have hbefore {a : Word} (ha : arena.live m a = false) : arena.live m₀ a = false := by
      rw [Bool.eq_false_iff] at ha ⊢
      exact fun ha₀ => ha (hextends.live a ha₀)
    rintro a (ha | ⟨side, ha⟩)
    · exact hnew a ha
    · cases side with
      | fst => exact hbefore (h₁.box_new a ha)
      | snd =>
        refine hbefore ?_
        have hnew₁ := h₂.box_new a ha
        rw [Bool.eq_false_iff] at hnew₁ ⊢
        exact fun ham => hnew₁ (h₁.live a ham)

section Building

variable {x : Setting} {arena : Arena} {texts : String → String} {start : Resources} {m : Machine}

theorem Lower.storeSide_executes (halloc : x.env.Allocates arena slotBytes)
    (hsp : m.regs .sp = arena.sp) {pair value : Register} (hpair : pair ∈ Register.general)
    (hvalue : value ∈ Register.general) {side : Side}
    (hlive : ∀ a, Block (m.regs pair) 8 a → arena.live m a = true) :
    (storeSide pair side value).Executes x start m
      (fun _ _ m' _ => ∃ box, arena.StoresSide m m' (m.regs pair) side box (m.regs value))
      (fun m' _ => x.env "malloc" m' = none) := by
  refine .bind (callMalloc_executes (fun m₁ hmalloc => ?_) id)
  have hgrants := halloc.grants hsp hmalloc
  have hkept {r : Register} (hr : r ∈ Register.general) : m₁.regs r = m.regs r :=
    hgrants.regs r fun hscratch => hscratch.1 hr
  have hstores : arena.StoresSide m _ (m.regs pair) side (m₁.regs .r0) (m.regs value) :=
    hgrants.storesSide hlive (m.regs value)
  refine .bind (executes_emit_next (exec_store_held ..) ?_)
  rw [hkept hvalue]
  refine .bind (executes_emit_next (exec_store ..) (executes_release ⟨m₁.regs .r0, ?_⟩))
  rw [Machine.regs_store, hkept hpair]
  exact hstores

/-- A register taken after two others is neither of them. -/
theorem FetchesBoth.ne_of_mem_free {W : Register → Prop} {start : Resources}
    {out : Lowered (Register × Register)} (h : FetchesBoth W start out) {r : Register}
    (hr : r ∈ out.resources.pool.free) : r ≠ out.value.1 ∧ r ≠ out.value.2 := by
  rcases h.holds with hholds | hholds
  · rw [hholds] at hr
    obtain ⟨hfree, hsnd⟩ := RegisterPool.mem_free_hold.1 hr
    exact ⟨(RegisterPool.mem_free_hold.1 hfree).2, hsnd⟩
  · rw [hholds] at hr
    obtain ⟨hfree, hfst⟩ := RegisterPool.mem_free_hold.1 hr
    exact ⟨hfst, (RegisterPool.mem_free_hold.1 hfree).2⟩

/-- The code that builds a pair builds it in new memory, or ends where no memory is given. -/
theorem Lower.newPair_executes (henv : x.env.Linked arena texts)
    (halloc : ∀ bytes < 2 ^ 32, x.env.Allocates arena bytes) (hsp : m.regs .sp = arena.sp)
    {fst snd : Expr} {v w : Word} (hfst : fst.valueIn arena x.message start.frame m = .ok v)
    (hsnd : snd.valueIn arena x.message start.frame m = .ok w) :
    (newPair fst snd).Executes x start m
      (fun r _ m' _ => ∃ box, arena.HoldsPair m' (m'.regs r) box (·.pick v w) ∧
        arena.Extends m m' ∧ ∀ a, InPair (m'.regs r) box a → arena.live m a = false)
      (fun m' _ => x.env "malloc" m' = none) := by
  rw [newPair_eq]
  have hblock : x.env.Allocates arena 8 := halloc 8 (by decide)
  have hbox : x.env.Allocates arena slotBytes := halloc slotBytes (by decide)
  have hsides {left : Bool} := @Delivers.inOrder x arena start m start.frame _ _ _ _
    (fst.delivers henv start.frame) (snd.delivers henv start.frame) rfl hsp (by simp [hfst])
    (by simp [hsnd]) left
  refine .bind ((hsides.and_ends (inOrder_takes fst.lower_takes snd.lower_takes)).imp ?_ ?_)
  · rintro ⟨a, b⟩ mid m₁ _ ⟨htook, h₁, ha, hb, _⟩
    rw [hfst] at ha
    rw [hsnd] at hb
    have hext₁ := h₁.extended start.pool.not_spare_sp
    refine .bind (allocate_executes (fun r hr m₂ hmalloc => ?_) id)
    have hgrants := hblock.grants (hext₁.sp.trans hsp) hmalloc
    have hgeneral := RegisterPool.general_of_mem_free hr
    obtain ⟨hra, hrb⟩ := htook.ne_of_mem_free hr
    -- From here on the pair is in `r`, and the values are where they were.
    let m₃ := m₂.set r (m₂.regs .r0)
    have hset : m₂.Spares arena (· = r) m₃ := .set (by rfl) _
    have hr₃ : m₃.regs r = m₂.regs .r0 := m₂.regs_set_self ..
    have hkept {s : Register} (hs : s ∈ Register.general) (hne : s ≠ r) :
        m₃.regs s = m₁.regs s :=
      (hset.regs s hne).trans (hgrants.regs s fun hscratch => hscratch.1 hs)
    have hext₃ : arena.Extends m m₃ :=
      hext₁.trans (hgrants.extended.trans (hset.extended (ne_sp_of_mem_free hr).symm))
    have hlive₃ (x : Word) (hx : Block (m₃.regs r) 8 x) : arena.live m₃ x = true := by
      rw [hset.live]
      exact hgrants.live_after (hr₃ ▸ hx)
    have hnew (x : Word) (hx : Block (m₃.regs r) 8 x) : arena.live m x = false := by
      rw [← h₁.live]
      exact hgrants.not_live_before (hr₃ ▸ hx)
    -- Each side gets a box of its own. The second box is new to the first one as well.
    refine .bind ((storeSide_executes hbox (hext₃.sp.trans hsp) hgeneral
      (RegisterPool.general_of_mem_free htook.fst_free) hlive₃).imp ?_ fun _ _ => id)
    rintro _ _ m₄ _ ⟨b₁, hfirst⟩
    have hr₄ : m₄.regs r = m₃.regs r := hfirst.regs r fun hscratch => hscratch.1 hgeneral
    have hb₄ := hfirst.regs b fun hscratch =>
      hscratch.1 (RegisterPool.general_of_mem_free htook.snd_free)
    have hsp₄ := (hfirst.regs .sp (by decide)).trans (hext₃.sp.trans hsp)
    refine .bind ((storeSide_executes hbox hsp₄ hgeneral
      (RegisterPool.general_of_mem_free htook.snd_free)
      fun x hx => hfirst.live x (hlive₃ x (hr₄ ▸ hx))).imp ?_ fun _ _ => id)
    rintro _ _ m₅ _ ⟨b₂, hsecond⟩
    rw [hr₄] at hsecond
    have hr₅ : m₅.regs r = m₃.regs r :=
      (hsecond.regs r fun hscratch => hscratch.1 hgeneral).trans hr₄
    have hpair := hfirst.holdsPair (by rw [hr₃]; exact hgrants.nonnull) hnew hlive₃ hext₃ hsecond
    rw [hb₄, hkept (RegisterPool.general_of_mem_free htook.fst_free) hra.symm,
      hkept (RegisterPool.general_of_mem_free htook.snd_free) hrb.symm, ← Except.ok.inj ha,
      ← Except.ok.inj hb, ← hr₅] at hpair
    exact executes_pure ⟨_, hpair⟩
  · rintro m' _ ⟨herror, _⟩
    simp [hfst, hsnd] at herror

end Building

/-! ## §4 Assigning to a side -/

/-- The value of a right side is kept in a register that is in use from then on. -/
theorem Rhs.lower_keeps (table : SymbolTable) (ty : Ty) (rhs : Rhs) (start : Resources) :
    (rhs.lower table ty).Ends start fun r after =>
      r ∈ Register.general ∧ r ∉ after.pool.free ∧ after.frame = start.frame := by
  refine (Rhs.lower_ends table ty rhs start).imp ?_
  rintro r after (⟨hr, rfl⟩ | ⟨hr, rfl⟩)
  · exact ⟨RegisterPool.general_of_mem_free hr, start.not_mem_free_hold r, rfl⟩
  · exact ⟨RegisterPool.general_of_mem_free hr, start.returned.not_mem_free_hold r, rfl⟩

/-- After a right side has been computed, its value replaces what the box of a side contains, and no
other live byte changes. -/
theorem Stmt.assignSide_executes {x : Setting} {arena : Arena} {texts : String → String}
    {start : Resources} {m m₁ : Machine} {table : SymbolTable} {span : Span} {which : Side}
    {e : Expr} {rhs : Rhs} {ty : Ty} {value : Lowered Register} {p : Word}
    {box content : Side → Word} (henv : x.env.Linked arena texts)
    (hty : (Target.side which e).typeIn start.frame = .ok ty)
    (hvalue : (rhs.lower table ty).run start = .ok value)
    (hfinished : x.run value.code m = .finished m₁) (hsp : m₁.regs .sp = arena.sp)
    (hpair : e.valueIn arena x.message start.frame m₁ = .ok p)
    (hholds : arena.HoldsPair m₁ p box content) :
    ((Stmt.assign span (.side which e) rhs).lower table).Executes x start m
      (fun _ _ m' _ =>
        arena.HoldsPair m' p box (Function.update content which (m₁.regs value.value)) ∧
          m'.regs .sp = arena.sp ∧ ∀ a, arena.live m₁ a = true → ¬ Block (box which) 4 a →
            arena.live m' a = true ∧ m'.memory a = m₁.memory a)
      (fun _ _ => False) := by
  obtain ⟨hgeneral, hheld, hframe⟩ := Rhs.lower_keeps table ty rhs start value hvalue
  have hkept := RegisterPool.not_spare_of_general hgeneral hheld
  refine .bind (executes_of_run (run_getFrame start) rfl ?_)
  rw [hty]
  refine .bind (executes_of_run (run_ofExcept_ok ty start) rfl ?_)
  -- The code of the right side is taken as given. What follows starts in the machine that it
  -- leaves.
  refine .bind (executes_of_finished hvalue hfinished ?_)
  have haddress : (sideAddress which e).Evaluates x arena value.resources.pool.Spare id
      value.resources m₁ (.ok (box which)) :=
    sideAddress_of_holds henv hsp (by rw [hframe]; exact hpair) hholds
  refine .bind (.bind (haddress.executes.imp ?_ fun _ _ => id))
  rintro r mid m₂ _ ⟨hspares, hr, _⟩
  have hext := hspares.extended value.resources.pool.not_spare_sp
  refine executes_pure (.bind (executes_emit_next (exec_store_held ..) ?_))
  rw [id] at hr
  rw [hr, hspares.regs _ hkept]
  refine .bind (executes_release (executes_release ⟨(hholds.extended hext).store which _, ?_, ?_⟩))
  · rw [Machine.regs_store, hext.sp, hsp]
  · intro a ha hother
    rw [Arena.live_store fun y hy => hext.live y (hholds.live y (.inr ⟨which, hy⟩)),
      Machine.memory_store_of_not_block hother]
    exact ⟨hext.live a ha, hext.memory a ha⟩

/-! ## §5 Agreement -/

/-- Building a pair, reading its sides and assigning to them agree on the layout. While the stack
pointer is where the arena says and allocations are fresh:
- The code that builds a pair from two values finishes with a pair whose boxes contain them, or ends
  in a call for memory that is not answered. The pair lies in bytes that were not in use, and all
  that was in use is as before.
- A pair stays what it is while nothing is stored to its own bytes.
- The code that reads a side finishes with the word that the side's box contains.
- An assignment to a side, once its right side is computed, finishes with that word in the side's
  box. The other side and all other bytes in use are as before.
- The code that finds a side of the null pair ends in the check, which goes on to end the program.
  Before that it accesses only what the expression of the pair accesses, and the check only saves
  the link register. -/
theorem Lower.pair_layout {env : Environment} {arena : Arena} {texts : String → String}
    (henv : env.Linked arena texts) (halloc : ∀ bytes < 2 ^ 32, env.Allocates arena bytes) :
    (∀ {fst snd : Expr} (c : (newPair fst snd).Emission) {m : Machine} {v w : Word},
      m.regs .sp = arena.sp → c.value arena m fst = .ok v → c.value arena m snd = .ok w →
      (∃ m' box, env.run c.code m = .finished m' ∧
        arena.HoldsPair m' (m'.regs c.out.value) box (·.pick v w) ∧ arena.Extends m m' ∧
        ∀ a, InPair (m'.regs c.out.value) box a → arena.live m a = false) ∨
      ∃ m', env.run c.code m = .failed m' ∧ env "malloc" m' = none) ∧
    (∀ {m m' : Machine} {p : Word} {box content : Side → Word},
      arena.HoldsPair m p box content →
      (∀ a, InPair p box a → arena.live m' a = true ∧ m'.memory a = m.memory a) →
      arena.HoldsPair m' p box content) ∧
    (∀ {table : SymbolTable} {ty : Ty} {which : Side} {e : Expr}
      (c : ((Rhs.side which e).lower table ty).Emission) {m : Machine} {p : Word}
      {box content : Side → Word}, m.regs .sp = arena.sp → c.value arena m e = .ok p →
      arena.HoldsPair m p box content →
      ∃ m', env.run c.code m = .finished m' ∧ m'.regs c.out.value = content which ∧
        arena.Extends m m') ∧
    (∀ {table : SymbolTable} {span : Span} {which : Side} {e : Expr} {rhs : Rhs} {ty : Ty}
      (c : ((Stmt.assign span (.side which e) rhs).lower table).Emission) {value : Lowered Register}
      {m m₁ : Machine} {p : Word} {box content : Side → Word},
      (Target.side which e).typeIn c.start.frame = .ok ty →
      (rhs.lower table ty).run c.start = .ok value →
      (c.setting env).run value.code m = .finished m₁ → m₁.regs .sp = arena.sp →
      c.value arena m₁ e = .ok p → arena.HoldsPair m₁ p box content →
      ∃ m', env.run c.code m = .finished m' ∧
        arena.HoldsPair m' p box (Function.update content which (m₁.regs value.value)) ∧
        m'.regs .sp = arena.sp ∧ ∀ a, arena.live m₁ a = true → ¬ Block (box which) 4 a →
          arena.live m' a = true ∧ m'.memory a = m₁.memory a) ∧
    (∀ {which : Side} {e : Expr} (c : (sideAddress which e).Emission) {m : Machine}
      {own : Lowered Register} (rest : List Instruction), m.regs .sp = arena.sp →
      c.value arena m e = .ok 0 → e.lower.run c.start = .ok own →
      ∃ m', env.run (c.code ++ rest) m = .failed m' ∧ checkNullPointer.EndsProgram texts m' ∧
        env.accesses (c.code ++ rest) m = (c.setting env).accesses own.code m ∧
        noCalls.accesses (checkNullPointer.sequence texts).code m' =
          [⟨true, m'.regs .sp - 4, .word⟩]) := by
  refine ⟨?build, ?persist, ?read, ?assign, ?null⟩
  case build =>
    intro fst snd c m v w hsp hfst hsnd
    have hend := (@newPair_executes (c.setting env) arena texts c.start m henv halloc hsp fst snd
      v w hfst hsnd).emitted c
    cases hrun : env.run c.code m with
    | finished m' =>
      rw [hrun] at hend
      obtain ⟨box, hpair⟩ := hend
      exact .inl ⟨m', box, rfl, hpair⟩
    | failed m' =>
      rw [hrun] at hend
      exact .inr ⟨m', rfl, hend⟩
    | stuck =>
      rw [hrun] at hend
      exact hend.elim
  case persist =>
    intro m m' p box content hpair hsame
    exact hpair.of_same hsame
  case read =>
    intro table ty which e c m p box content hsp hvalue hpair
    have hread := @Rhs.side_evaluates (c.setting env) arena texts c.start m which e p box content
      henv hsp table ty hvalue hpair
    obtain ⟨m', hrun, hspares, hregister, _⟩ := hread.executes.finishes c
    exact ⟨m', hrun, hregister, hspares.extended c.start.pool.not_spare_sp⟩
  case assign =>
    intro table span which e rhs ty c value m m₁ p box content hty hvalue hfinished hsp hpair hholds
    exact (Stmt.assignSide_executes henv hty hvalue hfinished hsp hpair hholds).finishes c
  case null =>
    intro which e c m own rest hsp hnull hown
    have hnullCheck := @sideAddress_of_null (c.setting env) arena texts c.start m which e henv hsp
      hnull
    obtain ⟨m', hrun, hzero, hend, haccesses⟩ := hnullCheck.ends c
    refine ⟨m', ?_, hend, ?_, accesses_nullCheck texts hzero⟩
    · rw [Environment.run_append, hrun]
    · rw [Environment.accesses_append, hrun, haccesses own hown]
      exact List.append_nil _

/-- One variable on the stack, which is a pair. -/
def pairResources : Resources where
  pool := RegisterPool.ofCount 8
  frame := {
    scopes := [{ base := 0, slots := 1, locals := [("p", ⟨4, Kind.base .pair, 0⟩)] }]
    depth := 4 }

/-- Builds a pair of a number and a character. -/
def pairBuilt : (newPair (.int {} "7") (.char {} 'a')).Emission :=
  (emit? _ pairResources 1024 {}).get (by decide +kernel)

/-- Reads the second side of the variable. -/
def sideRead : ((Rhs.side .snd (.ident {} "p")).lower {} .char).Emission :=
  (emit? _ pairResources 1024 {}).get (by decide +kernel)

/-- Assigns another character to it. -/
def sideAssigned :
    ((Stmt.assign {} (.side .snd (.ident {} "p")) (.expr (.char {} 'b'))).lower {}).Emission :=
  (emit? _ pairResources 1024 {}).get (by decide +kernel)

/-- Looks for the first side of the null pair. -/
def nullSide : (sideAddress .fst (.null {})).Emission :=
  (emit? _ pairResources 1024 {}).get (by decide +kernel)

/-- A pair is built and put into the variable. Its second side is read, assigned to and read again,
and each time the character is the one that was put there last. The null pair has no side. -/
theorem Lower.pair_layout_char :
    (Bump.env id).Linked Bump.arena id ∧
    (∀ bytes < 2 ^ 32, (Bump.env id).Allocates Bump.arena bytes) ∧
    ∃ built found assigned again failed,
      let held := Bump.put built (built.regs pairBuilt.out.value)
      (Bump.env id).run pairBuilt.code Bump.start = .finished built ∧
      (Bump.env id).run sideRead.code held = .finished found ∧
      found.regs sideRead.out.value = 97 ∧
      (Bump.env id).run sideAssigned.code held = .finished assigned ∧
      (Bump.env id).run sideRead.code assigned = .finished again ∧
      again.regs sideRead.out.value = 98 ∧
      (Bump.env id).run nullSide.code assigned = .failed failed ∧
      checkNullPointer.EndsProgram id failed := by
  have henv := Bump.env_linked id
  have halloc (bytes : Nat) (hbytes : bytes < 2 ^ 32) := Bump.env_allocates id hbytes
  obtain ⟨hbuild, hpersist, hread, hassign, hnull⟩ := pair_layout henv halloc
  have hfst : pairBuilt.value Bump.arena Bump.start (.int {} "7") = .ok 7 := by decide +kernel
  have hsnd : pairBuilt.value Bump.arena Bump.start (.char {} 'a') = .ok 97 := by decide +kernel
  rcases hbuild pairBuilt rfl hfst hsnd with
    ⟨built, box, hrun, hholds, hext, hnew⟩ | ⟨m', hfailed, -⟩
  · generalize hp : built.regs pairBuilt.out.value = p at *
    have hsp := Bump.sp_put hext p
    have hslot := Bump.read_put hext p
    -- The slot of the variable was in use before the pair was, so it is none of the pair's bytes.
    have hkept := @hpersist built (Bump.put built p) p box _ hholds
      fun a ha => ⟨by rw [Bump.live_put hext, hholds.live a ha], Bump.memory_put _ (hnew a ha)⟩
    have hapart (a : Word) (ha : Block (Bump.arena.sp + BitVec.ofInt 32 0) 4 a) :
        ¬ Block (box .snd) 4 a := by
      have hlive := Bump.slot_live a ha
      intro hbox
      simp [hnew a (.inr ⟨.snd, hbox⟩)] at hlive
    generalize hm : Bump.put built p = m at *
    have hvalue {m : Machine} (hsp : m.regs .sp = Bump.arena.sp)
        (hslot : Bump.arena.read m .word (Bump.arena.sp + BitVec.ofInt 32 0) = .ok p) :
        Expr.valueIn Bump.arena id pairResources.frame m (.ident {} "p") = .ok p := by
      have hlookup : pairResources.frame.lookup? "p" = some (0, ⟨.base .pair, 0⟩) := by
        decide +kernel
      simp only [Expr.valueIn, hlookup, hsp]
      exact hslot
    obtain ⟨found, hfound, hregister, -⟩ := hread sideRead hsp (hvalue hsp hslot) hkept
    -- The assignment first loads the character, which changes nothing that counts here.
    let loaded := m.set .r4 98
    have hloaded : m.Spares Bump.arena (· = .r4) loaded := .set (by rfl) _
    have hextends := hloaded.extended (by decide)
    obtain ⟨assigned, hrunAssigned, hholdsAssigned, hspAssigned, hsame⟩ :=
      @hassign {} {} .snd (.ident {} "p") (.expr (.char {} 'b')) .any sideAssigned
        ⟨.r4, pairResources.hold .r4, [.instr (.mov none .r4 (.imm 98))]⟩ m loaded p box _ rfl rfl
        rfl hsp (hvalue hsp (hextends.read hslot)) (hkept.extended hextends)
    have hslotAssigned : Bump.arena.read assigned .word (Bump.arena.sp + BitVec.ofInt 32 0) =
        .ok p := by
      obtain ⟨hlive, hload⟩ := Arena.read_eq_ok.1 (hextends.read hslot)
      refine Arena.read_eq_ok.2 ⟨fun a ha => (hsame a (hlive a ha) (hapart a ha)).1, ?_⟩
      rw [← hload]
      exact Machine.load_congr_block fun a ha => (hsame a (hlive a ha) (hapart a ha)).2
    obtain ⟨again, hagain, hregisterAgain, -⟩ :=
      hread sideRead hspAssigned (hvalue hspAssigned hslotAssigned) hholdsAssigned
    rw [Function.update_self, Machine.regs_set_self] at hregisterAgain
    obtain ⟨failed, hfailed, hends, -⟩ := @hnull .fst (.null {}) nullSide assigned
      ⟨.r4, pairResources.hold .r4, [.instr (loadConst .r4 0)]⟩ [] hspAssigned rfl rfl
    rw [List.append_nil] at hfailed
    subst hm hp
    exact ⟨henv, halloc, built, found, assigned, again, failed, hrun, hfound, hregister,
      hrunAssigned, hagain, hregisterAgain, hfailed, hends⟩
  · have hfinished : ((Bump.env id).run pairBuilt.code Bump.start).isFinished = true := by
      decide +kernel
    simp [hfailed, RunEnd.isFinished] at hfinished

end ArmCompiler
