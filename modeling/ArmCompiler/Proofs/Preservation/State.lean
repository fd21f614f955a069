import ArmCompiler.Lowering.Expr
import ArmCompiler.Proofs.Frames
import ArmCompiler.Proofs.Preservation.Words
import Mathlib.Tactic.Ring

/-!
# States that Represent Stores

A machine represents a store when the stack slot that the frame gives to each variable holds the
variable's value. This is so for every variable, also for those that an inner one hides. Slots do
not overlap, so writing one of them changes one variable.

## Contents
- §1: addresses of slots
- §2: the variables of a frame
- §3: values of variables
- §4: represented stores
- §5: reading and writing variables
- §6: scopes
-/

namespace ArmCompiler

open Literal

/-! ## §1 Addresses of slots -/

/-- The address that is a number of bytes below another one. -/
def below (top : Word) (position : Int) : Word := top - BitVec.ofInt 32 position

@[simp] theorem below_zero (top : Word) : below top 0 = top := by simp [below]

theorem below_add (top : Word) (p q : Int) :
    below top p + BitVec.ofInt 32 q = below top (p - q) := by
  rw [below, below, ofInt_sub]
  ring

/-- Positions that are less than the whole address space apart have different addresses. -/
theorem below_ne {top : Word} {p q : Int} (hne : p ≠ q) (hlt : p - q < 2 ^ 32)
    (hgt : -2 ^ 32 < p - q) : below top p ≠ below top q := by
  intro h
  have hsame : BitVec.ofInt 32 p = BitVec.ofInt 32 q := sub_right_injective h
  exact hne (eq_of_ofInt_eq hsame hlt hgt)

/-- Writing the slot at one position does not change what is read at another. -/
theorem Machine.load_store_below {m : Machine} {top w : Word} {p q : Int} {width : Width}
    (width' : Width) (hapart : p + 4 ≤ q ∨ q + 4 ≤ p) (hlt : p - q ≤ 2 ^ 32 - 4)
    (hgt : q - p ≤ 2 ^ 32 - 4) :
    (m.store (below top p) w width).load width' (below top q) = m.load width' (below top q) := by
  refine load_congr width' fun j hj => memory_store_of_ne fun k hk => ?_
  have hbyte (position : Int) (j : Nat) :
      below top position + BitVec.ofNat 32 j = below top (position - j) := by
    rw [← below_add, BitVec.ofInt_natCast]
  rw [hbyte, hbyte]
  exact below_ne (by omega) (by omega) (by omega)

/-! ## §2 The variables of a frame -/

namespace Frame

/-- The local variables of a frame, latest first. -/
def locals (frame : Frame) : List (String × Local) := frame.scopes.flatMap (·.locals)

/-- One slot lies below another. -/
def SlotBelow (a b : String × Local) : Prop := b.2.position + slotBytes ≤ a.2.position

theorem Placed.pairwise {base : Int} {locals : List (String × Local)} (h : Placed base locals) :
    locals.Pairwise SlotBelow := by
  induction locals with
  | nil => exact .nil
  | cons first older ih =>
    refine .cons (fun entry hentry => ?_) (ih h.2)
    have hbounds := h.2.bounds hentry
    have hfirst := h.1
    simp only [SlotBelow, slotBytes] at hbounds hfirst ⊢
    omega

theorem Stacked.pairwise {scopes : List Scope} {limit : Int} (h : Stacked scopes limit) :
    (scopes.flatMap (·.locals)).Pairwise SlotBelow := by
  induction scopes generalizing limit with
  | nil => exact .nil
  | cons scope outer ih =>
    obtain ⟨hplaced, _, _, houter⟩ := h
    rw [List.flatMap_cons, List.pairwise_append]
    refine ⟨hplaced.pairwise, ih houter, fun entry hentry other hother => ?_⟩
    -- All of an outer scope lies above the place where the inner one starts.
    obtain ⟨inner, hinner, hother⟩ := List.mem_flatMap.1 hother
    have hupper := (houter.bounds hinner hother).2
    have hlower := (hplaced.bounds hentry).1
    simp only [SlotBelow]
    omega

/-- The slots of a frame's variables do not overlap. -/
theorem Laid.pairwise {frame : Frame} (h : frame.Laid) : frame.locals.Pairwise SlotBelow :=
  h.scopes.pairwise

theorem Laid.bounds {frame : Frame} (h : frame.Laid) {entry : String × Local}
    (hentry : entry ∈ frame.locals) :
    (slotBytes : Int) ≤ entry.2.position ∧ entry.2.position ≤ frame.depth := by
  obtain ⟨scope, hscope, hentry⟩ := List.mem_flatMap.1 hentry
  exact h.scopes.bounds hscope hentry

/-- In a frame without parameters a variable is found among the locals. -/
theorem local?_eq_lookup {frame : Frame} (h : frame.params = []) (name : String) :
    frame.local? name = frame.locals.lookup name := by
  -- Searching scope after scope is searching all their variables in a row.
  have hscopes (scopes : List Scope) : (scopes.findSome? fun scope => scope.locals.lookup name) =
      (scopes.flatMap (·.locals)).lookup name := by
    induction scopes with
    | nil => rfl
    | cons scope outer ih =>
      rw [List.findSome?_cons, List.flatMap_cons, List.lookup_append, ih]
      cases scope.locals.lookup name <;> rfl
  rw [local?, h, hscopes, locals]
  exact Option.or_none

theorem locals_declare {frame frame' : Frame} {name : String} {ty : Ty} {offset : Int}
    (h : frame.declare name ty = .ok (offset, frame')) :
    ∃ l : Local, l.ty = ty ∧ offset = frame.offset l ∧ frame'.depth = frame.depth ∧
      frame'.params = frame.params ∧ frame'.locals = (name, l) :: frame.locals := by
  obtain ⟨scope, outer, hscopes, _, hoffset, rfl⟩ := declare_eq_ok.1 h
  refine ⟨scope.next ty, rfl, hoffset, rfl, rfl, ?_⟩
  simp [locals, Scope.add, hscopes]

/-- Declarations add variables in front. -/
theorem Declared.locals_eq {frame frame' : Frame} {count : Nat}
    (h : Declared frame count frame') :
    ∃ added, frame'.locals = added ++ frame.locals := by
  induction h with
  | none => exact ⟨[], rfl⟩
  | next _ hdeclare ih =>
    obtain ⟨added, hadded⟩ := ih
    obtain ⟨l, _, _, _, _, hlocals⟩ := locals_declare hdeclare
    exact ⟨_ :: added, by rw [hlocals, hadded]; rfl⟩

end Frame

/-! ## §3 Values of variables -/

/-- The values that an expression of a type can have. -/
def Ty.Admits (ty : Ty) (n : Int) : Prop := FitsWord n ∧ (ty = .bool → IsBit n)

theorem Ty.Admits.keep {ty : Ty} {n : Int} (h : ty.Admits n) : ty.Admits (ty.keep n) := by
  unfold Ty.keep
  split
  · refine ⟨⟨by omega, by omega⟩, fun hbool => ?_⟩
    rcases h.2 hbool with rfl | rfl
    · exact .inl rfl
    · exact .inr rfl
  · exact h

/-- What is read back from a slot is what a variable keeps. -/
theorem Machine.load_store_keep {ty : Ty} (hscalar : ty.isScalar) (m : Machine) (a : Word)
    (n : Int) :
    (m.store a (BitVec.ofInt 32 n) ty.width).load ty.width a = BitVec.ofInt 32 (ty.keep n) := by
  have hcases : ty = .int ∨ ty = .bool ∨ ty = .char := by
    simpa [Ty.isScalar, or_assoc] using hscalar
  rcases hcases with rfl | rfl | rfl
  · exact load_store_word m a _
  · exact (load_store_byte m a _).trans (setWidth_setWidth_ofInt n)
  · exact (load_store_byte m a _).trans (setWidth_setWidth_ofInt n)

/-! ## §4 Represented stores -/

/-- A slot of the stack that holds a variable. -/
structure Holds (m : Machine) (top : Word) (entry : String × Frame.Local)
    (var : String × Variable) : Prop where
  name : entry.1 = var.1
  ty : entry.2.ty = var.2.ty
  scalar : var.2.ty.isScalar
  admits : var.2.ty.Admits var.2.value
  loads : m.load var.2.ty.width (below top entry.2.position) = BitVec.ofInt 32 var.2.value

/-- A machine in which the frame's variables have the values that the store gives them, and in
which the link register is saved at `top`. -/
structure Represents (top link : Word) (frame : Frame) (σ : Store) (m : Machine) : Prop where
  laid : frame.Laid
  params : frame.params = []
  room : frame.depth + 4 ≤ 2 ^ 32
  stack : m.regs .sp = below top frame.depth
  saved : m.loadWord top = link
  vars : List.Forall₂ (Holds m top) frame.locals σ

/-- Everything but some registers and the flags stays as it is. -/
structure Machine.Keeps (W : Register → Prop) (m m' : Machine) : Prop where
  memory : m'.memory = m.memory
  regs : ∀ r, ¬W r → m'.regs r = m.regs r

namespace Machine.Keeps

variable {W W' : Register → Prop} {m m' m'' : Machine}

theorem refl (m : Machine) : Keeps W m m := ⟨rfl, fun _ _ => rfl⟩

theorem mono (h : Keeps W m m') (hsub : ∀ r, W r → W' r) : Keeps W' m m' :=
  ⟨h.memory, fun r hr => h.regs r fun hW => hr (hsub r hW)⟩

theorem trans (h : Keeps W m m') (h' : Keeps W m' m'') : Keeps W m m'' :=
  ⟨h'.memory.trans h.memory, fun r hr => (h'.regs r hr).trans (h.regs r hr)⟩

theorem set {r : Register} (hr : W r) (w : Word) : Keeps W m (m.set r w) :=
  ⟨rfl, fun s hs => m.regs_set_of_ne r s w fun heq => hs (heq ▸ hr)⟩

theorem load (h : Keeps W m m') (width : Width) (a : Word) : m'.load width a = m.load width a :=
  Machine.load_congr width fun _ _ => by rw [h.memory]

end Machine.Keeps

/-- `m.Delivers W r n m'`: a value was brought into a register, and no register outside of `W` was
written. -/
structure Machine.Delivers (W : Register → Prop) (m : Machine) (r : Register) (n : Int)
    (m' : Machine) : Prop where
  keeps : m.Keeps W m'
  value : m'.regs r = BitVec.ofInt 32 n

theorem Machine.delivers_set {W : Register → Prop} {m : Machine} {r : Register} {n : Int}
    (hr : W r) : m.Delivers W r n (m.set r (BitVec.ofInt 32 n)) :=
  ⟨.set hr _, m.regs_set_self r _⟩

theorem Holds.of_load {m m' : Machine} {top : Word} {entry : String × Frame.Local}
    {var : String × Variable} (h : Holds m top entry var)
    (hload : m'.load var.2.ty.width (below top entry.2.position) =
      m.load var.2.ty.width (below top entry.2.position)) : Holds m' top entry var :=
  { h with loads := hload.trans h.loads }

namespace Represents

variable {top link : Word} {frame : Frame} {σ : Store} {m m' : Machine}

/-- A machine that differs in other registers represents the same store. -/
theorem keeps {W : Register → Prop} (h : Represents top link frame σ m) (hkeeps : m.Keeps W m')
    (hsp : ¬W .sp) : Represents top link frame σ m' :=
  { h with
    stack := (hkeeps.regs .sp hsp).trans h.stack
    saved := (hkeeps.load .word top).trans h.saved
    vars := h.vars.imp fun _ _ hholds => hholds.of_load (hkeeps.load _ _) }

/-- The address of a variable is the one that its distance from the stack pointer leads to. -/
theorem address (h : Represents top link frame σ m) (l : Frame.Local) :
    m.regs .sp + BitVec.ofInt 32 (frame.offset l) = below top l.position := by
  rw [h.stack, below_add]
  congr 1
  simp only [Frame.offset]
  omega

end Represents

/-! ## §5 Reading and writing variables -/

theorem Holds.exists_of_lookup {m : Machine} {top : Word} {entries : List (String × Frame.Local)}
    {σ : Store} (h : List.Forall₂ (Holds m top) entries σ) {name : String} {l : Frame.Local}
    (hl : entries.lookup name = some l) :
    ∃ v, σ.lookup name = some v ∧ Holds m top (name, l) (name, v) := by
  -- Slots and variables are in the same order and have the same names, so both lookups stop at the
  -- same place.
  induction h with
  | nil => cases hl
  | @cons entry var _ _ hholds _ ih =>
    obtain ⟨x, l'⟩ := entry
    obtain ⟨y, v⟩ := var
    obtain rfl : x = y := hholds.name
    by_cases hname : name = x
    · subst hname
      obtain rfl : l' = l := by simpa using hl
      exact ⟨v, by simp, hholds⟩
    · have hmiss : (name == x) = false := beq_false_of_ne hname
      rw [List.lookup_cons, hmiss] at hl ⊢
      exact ih hl

section Write

variable {m : Machine} {top w : Word} {entries : List (String × Frame.Local)} {σ : Store}
  {width : Width}

/-- Writing one slot leaves variables in other slots alone. -/
theorem Holds.store_apart {p : Int} (h : List.Forall₂ (Holds m top) entries σ) (hp : 4 ≤ p)
    (hroom : p + 4 ≤ 2 ^ 32)
    (hentries : ∀ entry ∈ entries, 4 ≤ entry.2.position ∧ entry.2.position + 4 ≤ 2 ^ 32 ∧
      (p + 4 ≤ entry.2.position ∨ entry.2.position + 4 ≤ p)) :
    List.Forall₂ (Holds (m.store (below top p) w width) top) entries σ := by
  induction h with
  | nil => exact .nil
  | @cons entry _ _ _ hholds _ ih =>
    obtain ⟨hlower, hupper, hapart⟩ := hentries entry (by simp)
    refine .cons (hholds.of_load ?_) (ih fun other hother => hentries other (by simp [hother]))
    exact Machine.load_store_below _ hapart (by omega) (by omega)

/-- Writing the slot of a variable assigns to the variable. -/
theorem Holds.assign {name : String} {l : Frame.Local} {n : Int}
    (h : List.Forall₂ (Holds m top) entries σ) (hsorted : entries.Pairwise Frame.SlotBelow)
    (hbounds : ∀ entry ∈ entries, 4 ≤ entry.2.position ∧ entry.2.position + 4 ≤ 2 ^ 32)
    (hl : entries.lookup name = some l) (hn : l.ty.Admits n) :
    ∃ σ', σ.assign name n = .done σ' ∧
      List.Forall₂ (Holds (m.store (below top l.position) (BitVec.ofInt 32 n) l.ty.width) top)
        entries σ' := by
  induction h with
  | nil => cases hl
  | @cons entry var others rest hholds hrest ih =>
    obtain ⟨x, l'⟩ := entry
    obtain ⟨y, v⟩ := var
    obtain rfl : x = y := hholds.name
    obtain hty : l'.ty = v.ty := hholds.ty
    -- The slots are sorted, so each is apart from the head's; an assignment stops at the first
    -- variable of the name, as the lookup of its slot does.
    obtain ⟨hbelow, hsorted⟩ := List.pairwise_cons.1 hsorted
    simp only [Frame.SlotBelow, slotBytes] at hbelow
    have hhead := hbounds _ List.mem_cons_self
    have htail : ∀ other ∈ others, 4 ≤ other.2.position ∧ other.2.position + 4 ≤ 2 ^ 32 :=
      fun other hother => hbounds other (List.mem_cons_of_mem _ hother)
    by_cases hname : x = name
    · subst hname
      obtain rfl : l' = l := by simpa using hl
      refine ⟨(x, { v with value := v.ty.keep n }) :: rest, by simp [Store.assign], ?_⟩
      rw [hty] at hn ⊢
      refine .cons ⟨rfl, hty, hholds.scalar, hn.keep, m.load_store_keep hholds.scalar _ n⟩ ?_
      refine Holds.store_apart hrest hhead.1 hhead.2 fun other hother => ?_
      exact ⟨(htail other hother).1, (htail other hother).2, .inr (hbelow other hother)⟩
    · have hmiss : (name == x) = false := beq_false_of_ne fun heq => hname heq.symm
      rw [List.lookup_cons, hmiss] at hl
      obtain ⟨σ', hassign, hvars⟩ := ih hsorted htail hl
      refine ⟨(x, v) :: σ', by simp [Store.assign, hname, hassign], .cons ?_ hvars⟩
      have hmem := Frame.mem_of_lookup hl
      have hposition := htail _ hmem
      have hapart := hbelow _ hmem
      simp only at hposition hapart hhead
      have hload : (m.store (below top l.position) (BitVec.ofInt 32 n) l.ty.width).load
          v.ty.width (below top l'.position) = m.load v.ty.width (below top l'.position) :=
        Machine.load_store_below _ (.inl hapart) (by omega) (by omega)
      exact hholds.of_load hload

/-- Writing a register changes no variable. -/
theorem Holds.set (h : List.Forall₂ (Holds m top) entries σ) (r : Register) (w : Word) :
    List.Forall₂ (Holds (m.set r w) top) entries σ :=
  h.imp fun _ _ hholds => hholds.of_load rfl

end Write

namespace Represents

variable {top link : Word} {frame frame' : Frame} {σ : Store} {m : Machine} {name : String}
  {offset : Int} {ty : Ty} {n : Int}

/-- A variable that is found holds the value that the store gives it. -/
theorem read (h : Represents top link frame σ m) (hfind : frame.find name = .ok (offset, ty)) :
    ∃ v, σ.lookup name = some v ∧ v.ty = ty ∧ ty.isScalar ∧ ty.Admits v.value ∧
      m.load ty.width (m.regs .sp + BitVec.ofInt 32 offset) = BitVec.ofInt 32 v.value := by
  obtain ⟨l, hl, rfl, rfl⟩ := Frame.find_eq_ok.1 hfind
  rw [Frame.local?_eq_lookup h.params] at hl
  obtain ⟨v, hv, hholds⟩ := Holds.exists_of_lookup h.vars hl
  obtain hty : l.ty = v.ty := hholds.ty
  rw [h.address, hty]
  exact ⟨v, hv, rfl, hholds.scalar, hholds.admits, hholds.loads⟩

/-- The slots of the variables are within the address space, and so is the saved link register
above them. -/
theorem bounds (h : Represents top link frame σ m) {entry : String × Frame.Local}
    (hentry : entry ∈ frame.locals) :
    4 ≤ entry.2.position ∧ entry.2.position + 4 ≤ 2 ^ 32 := by
  have hbounds := h.laid.bounds hentry
  have hroom := h.room
  simp only [slotBytes] at hbounds
  omega

/-- Writing a slot leaves the saved link register alone. -/
theorem saved_store (h : Represents top link frame σ m) {p : Int} (hp : 4 ≤ p)
    (hroom : p + 4 ≤ 2 ^ 32) (w : Word) (width : Width) :
    (m.store (below top p) w width).loadWord top = link := by
  have hload : (m.store (below top p) w width).load .word (below top 0) =
      m.load .word (below top 0) :=
    Machine.load_store_below .word (.inr (by omega)) (by omega) (by omega)
  rw [below_zero] at hload
  exact hload.trans h.saved

/-- Storing a value where a variable is found assigns it to the variable. -/
theorem assign (h : Represents top link frame σ m) (hfind : frame.find name = .ok (offset, ty))
    (hn : ty.Admits n) :
    ∃ σ', σ.assign name n = .done σ' ∧ Represents top link frame σ'
      (m.store (m.regs .sp + BitVec.ofInt 32 offset) (BitVec.ofInt 32 n) ty.width) := by
  obtain ⟨l, hl, rfl, rfl⟩ := Frame.find_eq_ok.1 hfind
  rw [Frame.local?_eq_lookup h.params] at hl
  obtain ⟨σ', hassign, hvars⟩ :=
    Holds.assign h.vars h.laid.pairwise (fun _ hentry => h.bounds hentry) hl hn
  have hposition := h.bounds (Frame.mem_of_lookup hl)
  rw [h.address]
  refine ⟨σ', hassign, { h with stack := ?_, saved := ?_, vars := hvars }⟩
  · rw [Machine.regs_store]
    exact h.stack
  · exact h.saved_store hposition.1 hposition.2 _ _

/-- Storing a value in the next slot declares a variable. -/
theorem declare (h : Represents top link frame σ m)
    (hdeclare : frame.declare name ty = .ok (offset, frame')) (hscalar : ty.isScalar)
    (hn : ty.Admits n) :
    Represents top link frame' (σ.declare name ty n)
      (m.store (m.regs .sp + BitVec.ofInt 32 offset) (BitVec.ofInt 32 n) ty.width) := by
  have hlaid := h.laid.declare hdeclare
  obtain ⟨l, rfl, rfl, hdepth, hparams, hlocals⟩ := Frame.locals_declare hdeclare
  have hroom : frame'.depth + 4 ≤ 2 ^ 32 := hdepth ▸ h.room
  have hmem : (name, l) ∈ frame'.locals := by simp [hlocals]
  have hposition := hlaid.bounds hmem
  -- The new slot lies below all others, so writing it changes none of them.
  have hsorted := hlaid.pairwise
  rw [hlocals, List.pairwise_cons] at hsorted
  simp only [Frame.SlotBelow, slotBytes] at hsorted hposition
  rw [h.address]
  refine {
    laid := hlaid
    params := hparams.trans h.params
    room := hroom
    stack := ?_
    saved := h.saved_store (by omega) (by omega) _ _
    vars := ?_ }
  · rw [Machine.regs_store, hdepth]
    exact h.stack
  · rw [hlocals]
    refine .cons ⟨rfl, rfl, hscalar, hn.keep, m.load_store_keep hscalar _ n⟩ ?_
    refine Holds.store_apart h.vars (by omega) (by omega) fun entry hentry => ?_
    have hbelow := hsorted.1 entry hentry
    exact ⟨(h.bounds hentry).1, (h.bounds hentry).2, .inr hbelow⟩

/-! ## §6 Scopes -/

/-- Moving the stack pointer down opens a scope. -/
theorem openScope (h : Represents top link frame σ m) {slots : Nat}
    (hroom : frame.depth + (slotBytes * slots : Nat) + 4 ≤ 2 ^ 32) :
    Represents top link (frame.openScope slots) σ
      (m.set .sp (m.regs .sp - BitVec.ofInt 32 (slotBytes * slots : Nat))) where
  laid := h.laid.openScope slots
  params := h.params
  room := hroom
  stack := by
    have hdepth : (frame.openScope slots).depth =
        frame.depth + (slotBytes * slots : Nat) := rfl
    rw [Machine.regs_set_self, h.stack, hdepth, below, below, BitVec.ofInt_add, sub_sub]
  saved := h.saved
  vars := Holds.set h.vars .sp _

/-- Moving the stack pointer up again closes the scope. -/
theorem closeScope {σ' : Store} {m' : Machine} {slots count : Nat}
    (h : Represents top link frame σ m) (h' : Represents top link frame' σ' m')
    (hdeclared : (frame.openScope slots).Declared count frame') :
    Represents top link frame (σ'.drop (σ'.length - σ.length))
      (m'.set .sp (m'.regs .sp + BitVec.ofInt 32 (slotBytes * slots : Nat))) := by
  have hdepth : frame'.depth = frame.depth + (slotBytes * slots : Nat) := hdeclared.keeps.1
  obtain ⟨added, hadded⟩ := hdeclared.locals_eq
  have hlocals : frame'.locals = added ++ frame.locals := hadded
  -- The store has grown by as many variables as the frame.
  have hcount : σ'.length - σ.length = added.length := by
    have hlength := h.vars.length_eq
    have hlength' := h'.vars.length_eq
    rw [hlocals, List.length_append] at hlength'
    omega
  refine {
    laid := h.laid
    params := h.params
    room := h.room
    stack := ?_
    saved := h'.saved
    vars := ?_ }
  · rw [Machine.regs_set_self, h'.stack, hdepth, below_add]
    congr 1
    omega
  · have hvars := List.forall₂_drop added.length h'.vars
    rw [hlocals, List.drop_left] at hvars
    rw [hcount]
    exact Holds.set hvars .sp _

end Represents

end ArmCompiler
