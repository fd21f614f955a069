import ArmCompiler.Proofs.Heap.Checks
import ArmCompiler.Proofs.LinkClosed

/-!
# An Allocator

An environment that meets what is assumed of linked code. Its routines are executed from their
instructions. Its allocator keeps the address of the first byte that it has not given yet in a cell
in front of the heap, and goes up from there until the heap is used up. Main statements:
`Bump.env_linked` and `Bump.env_allocates`.

## Contents
- §1: executing routines
- §2: the heap
- §3: the environment
-/

namespace ArmCompiler

open Instruction Routine

/-! ## §1 Executing routines -/

/-- Executes instructions up to a return. There is no result if control leaves them otherwise. -/
def execute : List Instruction → Machine → Option Machine
  | [], _ => none
  | i :: rest, m =>
    match i.exec m with
    | .next m' => execute rest m'
    | .ret m' => some m'
    | .jump .. | .call .. | .stuck => none

/-- The machine that a sequence gives back. -/
def Halt.back? : Halt → Option Machine
  | .returned m => some m
  | .called .. => none

theorem Instruction.exec_eq_jump {i : Instruction} {m m' : Machine} {target : String}
    (h : i.exec m = .jump target m') : i.target? = some target := by
  cases i with
  | branch link cond name =>
    simp only [exec, Machine.guard] at h
    split at h
    · split at h
      · cases h
      · cases h
        rfl
    · cases h
  | label | directive | mov | push | pop | ldr | str | cmp | arith | smull =>
    simp only [exec, Machine.guard, Machine.write] at h
    repeat' split at h
    all_goals cases h

/-- Code without jumps into itself is executed from top to bottom. -/
theorem Runs.execute_eq {code rest : List Instruction} {m : Machine} {halt : Halt}
    (h : Runs code rest m halt)
    (hleaves : ∀ i ∈ rest, ∀ target, i.target? = some target → resume target code = none) :
    execute rest m = halt.back? := by
  induction h with
  | next hexec _ ih =>
    rw [execute, hexec]
    exact ih fun i hi => hleaves i (List.mem_cons_of_mem _ hi)
  -- A jump would need a label of the code to go to.
  | jump hexec hresume =>
    rw [hleaves _ List.mem_cons_self _ (exec_eq_jump hexec)] at hresume
    cases hresume
  | call hexec | ret hexec =>
    rw [execute, hexec]
    rfl

theorem resume_eq_none {name : String} {code : List Instruction} (h : name ∉ labelsOf code) :
    resume name code = none := by
  induction code with
  | nil => rfl
  | cons i rest ih =>
    have hother : i ≠ .label name := by
      rintro rfl
      exact h (List.mem_filterMap.2 ⟨_, List.mem_cons_self, rfl⟩)
    have hrest : name ∉ labelsOf rest := fun hname =>
      h (List.Sublist.subset ((List.sublist_cons_self i rest).filterMap _) hname)
    rw [resume, if_neg hother, ih hrest]

namespace Routine

theorem labelsOf_sequence (texts : String → String) (r : Routine) :
    labelsOf (r.sequence texts).code = [r.label] := by
  have hends : labelsOf r.ending.code = [] := by cases r <;> rfl
  have hopens : labelsOf (Listing.opening r.label r.returns) = [r.label] := by cases r <;> rfl
  rw [Routine.sequence, labelsOf_append, labelsOf_append, hopens, labelsOf_body, hends]
  rfl

/-- No routine branches to its own label. -/
theorem ne_label_of_target {texts : String → String} {r : Routine} {i : Instruction}
    (hi : i ∈ (r.sequence texts).code) {target : String} (htarget : i.target? = some target) :
    target ≠ r.label := by
  -- Where the texts are stored does not change the targets, so it is enough to look at one way of
  -- storing them.
  have htargets : (r.sequence texts).code.filterMap (·.target?) =
      (r.sequence id).code.filterMap (·.target?) := by
    cases r <;> rfl
  have hothers : r.label ∉ (r.sequence id).code.filterMap (·.target?) := by
    cases r <;> decide
  rintro rfl
  rw [← htargets] at hothers
  exact hothers (List.mem_filterMap.2 ⟨i, hi, htarget⟩)

/-- The routines are executed as they are carried out. -/
theorem execute_eq {texts : String → String} {r : Routine} {m : Machine} {halt : Halt}
    (h : Runs (r.sequence texts).code (r.sequence texts).code m halt) :
    execute (r.sequence texts).code m = halt.back? := by
  refine h.execute_eq fun i hi target htarget => resume_eq_none ?_
  rw [labelsOf_sequence, List.mem_singleton]
  exact ne_label_of_target hi htarget

end Routine

/-! ## §2 The heap -/

namespace Bump

/-- The cell that holds the address of the first free byte. -/
def cell : Word := 0x10000

/-- The first byte of the heap. -/
def bottom : Nat := 0x10004

/-- The end of the heap. -/
def top : Nat := 0x20000

/-- The word at an address. -/
def wordAt (memory : Word → Byte) (a : Word) : Word :=
  memory (a + 3) ++ memory (a + 2) ++ memory (a + 1) ++ memory a

/-- The first byte that is free. -/
def next (memory : Word → Byte) : Nat := max bottom (wordAt memory cell).toNat

theorem next_congr {memory memory' : Word → Byte}
    (h : ∀ a, Block cell 4 a → memory' a = memory a) : next memory' = next memory := by
  have hbyte (j : Nat) (hj : j < 4) :
      memory' (cell + BitVec.ofNat 32 j) = memory (cell + BitVec.ofNat 32 j) :=
    h _ (Block.add_offset hj (by decide))
  have hword : wordAt memory' cell = wordAt memory cell := by
    unfold wordAt
    rw [← BitVec.add_zero cell]
    exact congr (congrArg _ (congr (congrArg _ (congr (congrArg _ (hbyte 3 (by decide)))
      (hbyte 2 (by decide)))) (hbyte 1 (by decide)))) (hbyte 0 (by decide))
  rw [next, next, hword]

/-- The bytes of the allocator: its cell and what it has not given yet. -/
def free (memory : Word → Byte) (a : Word) : Bool :=
  Block cell 4 a || (next memory ≤ a.toNat && a.toNat < top)

theorem free_iff {memory : Word → Byte} {a : Word} :
    free memory a = true ↔ Block cell 4 a ∨ (next memory ≤ a.toNat ∧ a.toNat < top) := by
  simp [free]

/-- A block that does not wrap around. -/
theorem block_iff {n bytes : Nat} {a : Word} (hfits : n + bytes < 2 ^ 32) :
    Block (BitVec.ofNat 32 n) bytes a ↔ n ≤ a.toNat ∧ a.toNat < n + bytes := by
  have hlt := a.isLt
  have hn : n % 2 ^ 32 = n := Nat.mod_eq_of_lt (by omega)
  simp only [Block, BitVec.toNat_sub, BitVec.toNat_ofNat, hn]
  omega

/-- The bytes of the cell. -/
theorem block_cell_iff {a : Word} : Block cell 4 a ↔ 0x10000 ≤ a.toNat ∧ a.toNat < 0x10004 :=
  block_iff (by decide)

/-- A stack below the heap, of which the bytes below the stack pointer are volatile. -/
def arena : Arena where
  sp := 0x8000
  volatile a := Block (BitVec.ofNat 32 0x7000) 0x1000 a
  free := free
  saves a ha := by
    have ha : Block (BitVec.ofNat 32 0x7FFC) 4 a := ha
    rw [block_iff (by decide)] at ha
    rw [decide_eq_true_iff, block_iff (by decide)]
    omega
  apart memory a ha := by
    have hbottom : 0x10004 ≤ next memory := le_max_left _ _
    rw [decide_eq_false_iff_not, block_iff (by decide)]
    rcases free_iff.1 ha with hcell | ⟨hnext, _⟩
    · rw [block_cell_iff] at hcell
      omega
    · omega
  owned {memory memory'} h := by
    have hnext : next memory' = next memory :=
      next_congr fun a ha => h a (free_iff.2 (.inl ha))
    funext a
    rw [free, free, hnext]

/-- Gives as many bytes as `r0` asks for, if the heap has them. -/
def malloc (m : Machine) : Option Machine :=
  let block := next m.memory
  let bytes := (m.regs .r0).toNat
  if block + bytes ≤ top then
    some ((m.store cell (BitVec.ofNat 32 (block + bytes)) .word).set .r0 (BitVec.ofNat 32 block))
  else none

/-- What is given is counted. -/
theorem next_store (m : Machine) {n : Nat} (hbottom : bottom ≤ n) (htop : n ≤ top) :
    next (m.store cell (BitVec.ofNat 32 n) .word).memory = n := by
  have hword : wordAt (m.store cell (BitVec.ofNat 32 n) .word).memory cell = BitVec.ofNat 32 n :=
    Machine.load_store_word m cell _
  have hsmall : n % 2 ^ 32 = n := Nat.mod_eq_of_lt (lt_of_le_of_lt htop (by decide))
  rw [next, hword, BitVec.toNat_ofNat, hsmall]
  exact max_eq_right hbottom

theorem malloc_grants {m m' : Machine} (h : malloc m = some m') :
    arena.Grants (m.regs .r0).toNat m m' := by
  -- Numbers take the place of the words, so that the bounds are arithmetic.
  generalize hbytes : (m.regs .r0).toNat = bytes at *
  unfold malloc at h
  rw [hbytes] at h
  have hbottom : bottom ≤ next m.memory := le_max_left _ _
  generalize hblock : next m.memory = block at *
  have hend : top = 0x20000 := rfl
  have hstart : bottom = 0x10004 := rfl
  dsimp only at h
  split at h
  · next hfits =>
    cases h
    have hsmall : block + bytes < 2 ^ 32 := by omega
    have hr0 {m : Machine} {w : Word} : (m.set .r0 w).regs .r0 = w := m.regs_set_self ..
    have hnext : next (m.store cell (BitVec.ofNat 32 (block + bytes)) .word).memory =
        block + bytes := next_store m (by omega) hfits
    have hnull : BitVec.ofNat 32 block ≠ 0 := by
      intro hzero
      have hzero : block % 2 ^ 32 = 0 := by simpa using congrArg BitVec.toNat hzero
      omega
    -- What is free before and after differs by the block.
    have hfree' {a : Word} :
        arena.free (m.store cell (BitVec.ofNat 32 (block + bytes)) .word).memory a = true ↔
          Block cell 4 a ∨ (block + bytes ≤ a.toNat ∧ a.toNat < top) := by
      have hiff := @free_iff (m.store cell (BitVec.ofNat 32 (block + bytes)) .word).memory a
      rwa [hnext] at hiff
    have hfree {a : Word} : arena.free m.memory a = true ↔
        Block cell 4 a ∨ (block ≤ a.toNat ∧ a.toNat < top) := by
      rw [← hblock]
      exact free_iff
    refine ⟨?_, ?_, ?_, ?_, by omega, by rwa [hr0], ?_, ?_⟩
    · exact Machine.symbols_store ..
    · intro r hr
      have hne : r ≠ .r0 := by rintro rfl; exact hr (by decide)
      rw [Machine.regs_set_of_ne _ _ _ _ hne, Machine.regs_store]
    · -- The cell is the only thing written, and it is never live.
      intro a ha
      refine (Machine.memory_store_of_not_block fun hcell => ?_ :
        (m.store cell (BitVec.ofNat 32 (block + bytes)) .word).memory a = m.memory a)
      have hlive := (Arena.live_iff.1 ha).2
      rw [hfree.2 (.inl hcell)] at hlive
      cases hlive
    · intro a ha
      refine hfree.2 ((hfree'.1 ha).imp_right fun habove => ?_)
      omega
    · intro a ha
      rw [hr0, block_iff hsmall] at ha
      exact hfree.2 (.inr (by omega))
    · intro a ha
      rw [hr0, block_iff hsmall] at ha
      rw [Bool.eq_false_iff]
      intro hfree''
      rcases hfree'.1 hfree'' with hcell | habove
      · rw [block_cell_iff] at hcell
        omega
      · omega
  · cases h

/-! ## §3 The environment -/

/-- Executes the routines, divides and gives memory. -/
def env (texts : String → String) : Environment := fun target m =>
  match Routine.all.find? (·.label == target) with
  | some r => execute (r.sequence texts).code m
  | none => if target = "malloc" then malloc m else plainEnvironment target m

theorem env_label (texts : String → String) (r : Routine) (m : Machine) :
    env texts r.label m = execute (r.sequence texts).code m := by
  have hfind : Routine.all.find? (·.label == r.label) = some r := by cases r <;> rfl
  rw [env, hfind]

theorem env_linked (texts : String → String) : (env texts).Linked arena texts where
  routines r := by
    constructor
    · intro m m' hruns
      rw [env_label, execute_eq hruns]
      rfl
    · intro m m' hruns
      rw [env_label, execute_eq hruns]
      rfl
  quotient m _ _ := ⟨_, rfl, .set (by decide) _, m.regs_set_self ..⟩
  remainder m _ _ := ⟨_, rfl, .trans (.set (by decide) _) (.set (by decide) _),
    Machine.regs_set_self ..⟩

theorem env_allocates (texts : String → String) {bytes : Nat} (hbytes : bytes < 2 ^ 32) :
    (env texts).Allocates arena bytes := by
  intro m m' _ hasked hmalloc
  have hsize : (m.regs .r0).toNat = bytes := by
    rw [hasked, BitVec.toNat_ofNat, Nat.mod_eq_of_lt hbytes]
  rw [← hsize]
  exact malloc_grants hmalloc

/-- A machine at the top of its stack, with nothing allocated yet. -/
def start : Machine where
  regs := fun _ => arena.sp
  flags := ⟨false, false, false, false⟩
  memory := fun _ => 0
  symbols := fun _ => 0

/-- Puts a word in the slot at the top of the stack. -/
def put (m : Machine) (p : Word) : Machine := m.store arena.sp p .word

section Put

variable {m : Machine} (h : arena.Extends start m) (p : Word)

theorem slot_live : ∀ a, Block arena.sp 4 a → arena.live start a = true :=
  Arena.covers_iff.1 (by decide +kernel : arena.covers start .word _ = true)

/-- The slot is none of the bytes that have been allocated since. -/
theorem memory_put {a : Word} (ha : arena.live start a = false) :
    (put m p).memory a = m.memory a := by
  refine Machine.memory_store_of_not_block fun hslot => ?_
  simp [slot_live a hslot] at ha

include h

theorem live_put : arena.live (put m p) = arena.live m :=
  Arena.live_store fun a ha => h.live a (slot_live a ha)

theorem sp_put : (put m p).regs .sp = arena.sp := by
  rw [put, Machine.regs_store, h.sp]
  rfl

theorem read_put : arena.read (put m p) .word (arena.sp + BitVec.ofInt 32 0) = .ok p := by
  refine Arena.read_eq_ok.2 ⟨fun a ha => ?_, Machine.load_store_self ..⟩
  rw [live_put h p]
  exact h.live a (slot_live a ha)

end Put

end Bump

end ArmCompiler
