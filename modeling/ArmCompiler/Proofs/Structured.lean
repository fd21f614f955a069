import ArmCompiler.Proofs.Frames
import ArmCompiler.Proofs.Steps

/-!
# The Structure of Lowered Code

What the code of a body can look like, said once. *Straight* steps compute, load and store
without moving the stack pointer or leaving the sequence for good. *Structured* code puts
straight steps, calls, scopes, returns, conditionals and loops together. That lowering only
produces structured code is proved in `ArmCompiler.Proofs.Balance`; every property of the
emitted code that does not depend on values follows from its structure.

## Contents
- §1: straight steps
- §2: argument lists
- §3: structured code
-/

namespace ArmCompiler

open Instruction Lower

/-! ## §1 Straight steps -/

/-- The library functions that compiled code and the support routines call. -/
def libraryFunctions : List String :=
  ["printf", "puts", "scanf", "fflush", "malloc", "free", "exit", "__aeabi_idiv",
    "__aeabi_idivmod"]

/-- A distance from the stack pointer at which a variable can lie: in the slots of the frame,
or above the saved link register. -/
def InFrame (depth offset : Int) : Prop :=
  (0 ≤ offset ∧ offset + slotBytes ≤ depth) ∨ depth + slotBytes ≤ offset

/-- A distance from the stack pointer at which the frame has a variable. -/
def Frame.Shows (frame : Frame) (offset : Int) : Prop :=
  ∃ name ty, frame.find name = .ok (offset, ty)

/-- In a laid-out frame the variables are where they can lie. -/
theorem Frame.Laid.inFrame {frame : Frame} (h : frame.Laid) {offset : Int}
    (hshows : frame.Shows offset) : InFrame frame.depth offset := by
  obtain ⟨name, ty, hfind⟩ := hshows
  obtain ⟨l, hl, rfl, _⟩ := Frame.find_eq_ok.1 hfind
  have := h.local? hl
  simp only [InFrame, Frame.offset, slotBytes] at this ⊢
  omega

/-- Steps that only compute, load, store and call what comes back. The registers they write
are among `W`, and the distances at which they access what is next to the stack pointer are
among `S`. -/
inductive Straight (W : Register → Prop) (S : Int → Prop) : Pseudo → Prop where
  | constant {r : Register} {value : Int} (hr : W r) :
      Straight W S (.instr (loadConst r value))
  | mov {cond : Option Condition} {r : Register} {src : Operand} (hr : W r) :
      Straight W S (.instr (.mov cond r src))
  | text {r : Register} {text : String} (hr : W r) : Straight W S (.message r text)
  | loadSlot {width : Width} {r : Register} {offset : Int} (hr : W r) (hslot : S offset) :
      Straight W S (.instr (.ldr none width r (.offset .sp offset)))
  | storeSlot {width : Width} {r : Register} {offset : Int} (hslot : S offset) :
      Straight W S (.instr (.str width r (.offset .sp offset)))
  | load {width : Width} {r base : Register} {offset : Int} (hr : W r) (hbase : base ≠ .sp) :
      Straight W S (.instr (.ldr none width r (.offset base offset)))
  | store {width : Width} {r base : Register} {offset : Int} (hbase : base ≠ .sp) :
      Straight W S (.instr (.str width r (.offset base offset)))
  | arith {op : ArithOp} {setFlags : Bool} {r lhs : Register} {rhs : Operand} (hr : W r) :
      Straight W S (.instr (.arith op setFlags r lhs rhs))
  | cmp {lhs : Register} {rhs : Operand} : Straight W S (.instr (.cmp lhs rhs))
  | smull {lo hi lhs rhs : Register} (hlo : W lo) (hhi : W hi) :
      Straight W S (.instr (.smull lo hi lhs rhs))
  | routine {cond : Option Condition} {r : Routine} : Straight W S (.routine cond r)
  | library {name : String} (hname : name ∈ libraryFunctions) :
      Straight W S (.instr (call name))

/-- Code that is straight from end to end. -/
def StraightCode (W : Register → Prop) (S : Int → Prop) (code : List Pseudo) : Prop :=
  ∀ p ∈ code, Straight W S p

namespace StraightCode

variable {W : Register → Prop} {S : Int → Prop} {a b : List Pseudo} {p : Pseudo}

@[simp] theorem nil : StraightCode W S [] := by simp [StraightCode]

@[simp] theorem cons_iff :
    StraightCode W S (p :: a) ↔ Straight W S p ∧ StraightCode W S a := by
  simp [StraightCode]

@[simp] theorem append_iff :
    StraightCode W S (a ++ b) ↔ StraightCode W S a ∧ StraightCode W S b := by
  simp only [StraightCode, List.mem_append]
  constructor
  · intro h
    exact ⟨fun p hp => h p (.inl hp), fun p hp => h p (.inr hp)⟩
  · rintro ⟨ha, hb⟩ p (hp | hp)
    · exact ha p hp
    · exact hb p hp

/-- Straight code that accesses variables of a laid-out frame. -/
theorem inFrame {frame : Frame} (h : StraightCode W frame.Shows a) (hlaid : frame.Laid) :
    StraightCode W (InFrame frame.depth) a := by
  intro p hp
  cases h p hp with
  | loadSlot hr hslot => exact .loadSlot hr (hlaid.inFrame hslot)
  | storeSlot hslot => exact .storeSlot (hlaid.inFrame hslot)
  | constant hr => exact .constant hr
  | mov hr => exact .mov hr
  | text hr => exact .text hr
  | load hr hbase => exact .load hr hbase
  | store hbase => exact .store hbase
  | arith hr => exact .arith hr
  | cmp => exact .cmp
  | smull hlo hhi => exact .smull hlo hhi
  | routine => exact .routine
  | library hname => exact .library hname

end StraightCode

/-- The registers of `W` can be written while nothing but the pool's held registers is in
use. -/
structure Writable (pool : RegisterPool) (W : Register → Prop) : Prop where
  free : ∀ r ∈ pool.free, W r
  r0 : W .r0
  r1 : W .r1

/-- Every register can be written as long as nothing is asked of the written ones. -/
theorem Writable.any (pool : RegisterPool) : Writable pool fun _ => True :=
  ⟨fun _ _ => trivial, trivial, trivial⟩

/-- What can be written while more is held can be written while less is. -/
theorem Writable.hold {pool : RegisterPool} {W : Register → Prop} (h : Writable pool W)
    (r : Register) : Writable (pool.hold r) W where
  free := fun s hs => h.free s (RegisterPool.mem_free_hold.1 hs).1
  r0 := h.r0
  r1 := h.r1

/-! ## §2 Argument lists -/

/-- Code that pushes a number of arguments. Each is computed after a number of others was pushed,
which decides on the distances at which the variables are. -/
inductive Pushes (W : Register → Prop) (S : Nat → Int → Prop) : Nat → List Pseudo → Prop where
  | nil : Pushes W S 0 []
  | snoc {count : Nat} {code arg : List Pseudo} {width : Width} {r : Register} :
      Pushes W S count code → StraightCode W (S count) arg →
      Pushes W S (count + 1)
        (code ++ (arg ++ [.instr (.str width r (.preIndexed .sp (-(slotBytes : Int))))]))

/-- Where variables can lie when a number of arguments was pushed from a depth. -/
abbrev InPushed (depth : Int) (count : Nat) : Int → Prop :=
  InFrame (depth + (slotBytes * count : Nat))

/-- Where a frame has its variables when a number of arguments was pushed. -/
abbrev Frame.ShowsPushed (frame : Frame) (count : Nat) : Int → Prop :=
  (frame.pushTemp (slotBytes * count : Nat)).Shows

theorem Pushes.inFrame {W : Register → Prop} {frame : Frame} {count : Nat} {code : List Pseudo}
    (h : Pushes W frame.ShowsPushed count code) (hlaid : frame.Laid) :
    Pushes W (InPushed frame.depth) count code := by
  induction h with
  | nil => exact .nil
  | snoc _ harg ih => exact .snoc ih (harg.inFrame (hlaid.pushTemp (by omega)))

/-! ## §3 Structured code -/

/-- The code of a conditional with one arm. -/
def ifThenCode (done : Nat) (cond arm : List Pseudo) : List Pseudo :=
  cond ++ .instr (jumpIf .eq (localLabel done)) :: (arm ++ [.instr (.label (localLabel done))])

/-- The code of a conditional with two arms. -/
def ifElseCode (done otherwise : Nat) (cond thenArm elseArm : List Pseudo) : List Pseudo :=
  cond ++ .instr (jumpIf .eq (localLabel otherwise)) :: (thenArm ++
    .instr (jump (localLabel done)) :: .instr (.label (localLabel otherwise)) :: (elseArm ++
      [.instr (.label (localLabel done))]))

/-- The code of a loop that is tested before each round. -/
def loopCode (check top : Nat) (round cond : List Pseudo) : List Pseudo :=
  .instr (jump (localLabel check)) :: .instr (.label (localLabel top)) :: (round ++
    .instr (.label (localLabel check)) :: (cond ++ [.instr (jumpIf .eq (localLabel top))]))

/-- The code of a loop that is tested after each round. -/
def untilCode (top : Nat) (round cond : List Pseudo) : List Pseudo :=
  .instr (.label (localLabel top)) ::
    (round ++ (cond ++ [.instr (jumpIf .eq (localLabel top))]))

/-- The code of a scope. -/
def scopeCode (slots : Nat) (body : List Pseudo) : List Pseudo :=
  .reserve (slotBytes * slots) :: (body ++ [.unreserve (slotBytes * slots)])

/-- `Structured W known depth n n' code`: the code starts and ends `depth` bytes below the saved
link register, its local labels are those from `n` up to, but without, `n'`, and it calls only
functions that are `known`. -/
inductive Structured (W : Register → Prop) (known : String → Prop) :
    Int → Nat → Nat → List Pseudo → Prop where
  | straight {depth : Int} {n : Nat} {code : List Pseudo} :
      StraightCode W (InFrame depth) code → Structured W known depth n n code
  | append {depth : Int} {n n' n'' : Nat} {a b : List Pseudo} :
      Structured W known depth n n' a → Structured W known depth n' n'' b →
      Structured W known depth n n'' (a ++ b)
  | call {depth : Int} {n count : Nat} {name : String} {code : List Pseudo} :
      known name → Pushes W (InPushed depth) count code →
      Structured W known depth n n
        (code ++ [.instr (Instruction.call (functionLabel name)),
          .unreserve (slotBytes * count)])
  | scope {depth : Int} {n n' slots : Nat} {body : List Pseudo} :
      Structured W known (depth + (slotBytes * slots : Nat)) n n' body →
      Structured W known depth n n' (scopeCode slots body)
  | ret {depth : Int} {n : Nat} :
      0 ≤ depth → Structured W known depth n n [.unreserve depth.toNat, .instr (.pop .pc)]
  | ifThen {depth : Int} {n n' : Nat} {cond arm : List Pseudo} :
      StraightCode W (InFrame depth) cond → Structured W known depth (n + 1) n' arm →
      Structured W known depth n n' (ifThenCode n cond arm)
  | ifElse {depth : Int} {n n' n'' : Nat} {cond thenArm elseArm : List Pseudo} :
      StraightCode W (InFrame depth) cond → Structured W known depth (n + 2) n' thenArm →
      Structured W known depth n' n'' elseArm →
      Structured W known depth n n'' (ifElseCode n (n + 1) cond thenArm elseArm)
  | loop {depth : Int} {n n' : Nat} {round cond : List Pseudo} :
      Structured W known depth (n + 2) n' round → StraightCode W (InFrame depth) cond →
      Structured W known depth n n' (loopCode n (n + 1) round cond)
  | untilLoop {depth : Int} {n n' : Nat} {round cond : List Pseudo} :
      Structured W known depth (n + 1) n' round → StraightCode W (InFrame depth) cond →
      Structured W known depth n n' (untilCode n round cond)

namespace Structured

variable {W : Register → Prop} {known : String → Prop} {depth : Int} {n n' : Nat}

/-- Straight code can follow any code. -/
theorem append_straight {a b : List Pseudo} (ha : Structured W known depth n n' a)
    (hb : StraightCode W (InFrame depth) b) : Structured W known depth n n' (a ++ b) :=
  .append ha (.straight hb)

/-- Labels are taken in order. -/
theorem label_le {code : List Pseudo} (h : Structured W known depth n n' code) : n ≤ n' := by
  induction h with
  | straight | call | ret => exact Nat.le_refl _
  | append _ _ iha ihb => exact Nat.le_trans iha ihb
  | scope _ ih => exact ih
  | ifThen _ _ ih | loop _ _ ih | untilLoop _ _ ih => omega
  | ifElse _ _ _ iht ihe => omega

end Structured

end ArmCompiler
