import ArmCompiler.Proofs.CheckedPrograms
import ArmCompiler.Proofs.Labels
import Mathlib.Algebra.Order.Ring.Int

/-!
# Stack Discipline

The code of a body moves the stack pointer for scopes, returns and call arguments. Followed along
any path from the saving of the link register, it is at one depth at each instruction, whichever
way led there; it is back where it started at every return; and the variables it accesses never
share a byte with the saved link register. Main statement: `Program.generate_disciplined`.

The proof gives every instruction a depth. `Flow` says that the depths of neighbours fit together,
and that a label has the depth of the branches to it; structured code has such depths.

## Contents
- §1: paths
- §2: disciplined code
- §3: depths along code
- §4: paths keep to the depths
- §5: depths of single steps
- §6: depths of structured code
- §7: programs
-/

namespace ArmCompiler

open Lower Listing

/-! ## §1 Paths -/

/-- The registers that are moved along with an access. -/
def Address.written : Address → List Register
  | .preIndexed base _ => [base]
  | .offset .. | .constant _ | .label _ => []

namespace Instruction

/-- The registers that an instruction writes, branching apart. -/
def written : Instruction → List Register
  | .mov _ dst _ | .arith _ _ dst _ _ => [dst]
  | .push _ => [.sp]
  | .pop r => [.sp, r]
  | .ldr _ _ dst src => dst :: src.written
  | .str _ _ dst => dst.written
  | .smull lo hi _ _ => [lo, hi]
  | .branch true .. => [.lr]
  | .branch false .. | .label _ | .directive _ | .cmp .. => []

/-- By how many bytes an instruction moves the stack pointer down. There is no answer for an
instruction that writes the stack pointer in another way, or the program counter. -/
def stackMove? : Instruction → Option Int
  | .push _ => some slotBytes
  | .str _ _ (.preIndexed .sp displacement) => some (-displacement)
  | .arith .sub _ .sp .sp (.imm bytes) => some bytes
  | .arith .add _ .sp .sp (.imm bytes) => some (-bytes)
  | i => if .sp ∈ i.written ∨ .pc ∈ i.written then none else some 0

/-- Where an instruction accesses memory next to the stack pointer, seen from where the stack
pointer is afterwards. -/
def stackAccess? : Instruction → Option Int
  | .ldr _ _ _ (.offset .sp displacement) | .str _ _ (.offset .sp displacement) =>
    some displacement
  | .ldr _ _ _ (.preIndexed .sp _) | .str _ _ (.preIndexed .sp _) => some 0
  | _ => none

/-- Whether control can pass to the instruction below. -/
def continues : Instruction → Bool
  | .branch false none _ | .pop .pc => false
  | _ => true

end Instruction

/-- `Reaches code index depth`: a path from the start of the code arrives at the instruction with
that index while the stack pointer is `depth` bytes below where it was at the start. A conditional
branch can go both ways, a call comes back with the stack pointer as it was, and a path ends when
the program counter is popped. -/
inductive Reaches (code : List Instruction) : Nat → Int → Prop where
  | start : Reaches code 0 0
  | next {index : Nat} {depth move : Int} {i : Instruction} :
      Reaches code index depth → code[index]? = some i → i.continues = true →
      i.stackMove? = some move → Reaches code (index + 1) (depth + move)
  | jump {index target : Nat} {depth : Int} {cond : Option Condition} {name : String} :
      Reaches code index depth → code[index]? = some (.branch false cond name) →
      code[target]? = some (.label name) → Reaches code target depth

/-! ## §2 Disciplined code -/

/-- Code that keeps its stack in order on every path. The code stands below the instruction that
saves the link register, so depth zero is where the stack pointer is at the saved link
register. -/
structure Disciplined (code : List Instruction) : Prop where
  /-- Every path goes on until the program counter is popped: it stays inside the code, its moves
  of the stack pointer are known, and its branches find their labels. -/
  goesOn : ∀ {index depth}, Reaches code index depth → ∃ i, code[index]? = some i ∧
    (i = .pop .pc ∨ ((i.stackMove?).isSome ∧ ∀ cond name, i = .branch false cond name →
      ∃ target : Nat, code[target]? = some (.label name)))
  balanced : ∀ {index depth}, Reaches code index depth → code[index]? = some (.pop .pc) → depth = 0
  joined : ∀ {index depth depth'}, Reaches code index depth → Reaches code index depth' →
    depth = depth'
  below : ∀ {index depth}, Reaches code index depth → 0 ≤ depth
  slots : ∀ {index depth move offset i}, Reaches code index depth → code[index]? = some i →
    i.stackMove? = some move → i.stackAccess? = some offset → InFrame (depth + move) offset

/-! ## §3 Depths along code -/

/-- What an instruction asks of the depth it is reached at, given the depth of each local
label. -/
structure Instruction.Fits (depths : Nat → Int) (depth : Int) (i : Instruction) : Prop where
  below : 0 ≤ depth
  label : ∀ n, i = .label (localLabel n) → depths n = depth
  branch : ∀ cond name, i = .branch false cond name → ∃ n, name = localLabel n ∧ depths n = depth
  slot : ∀ move offset, i.stackMove? = some move → i.stackAccess? = some offset →
    InFrame (depth + move) offset

/-- `Flow depths d code e`: the depths of the instructions fit together, from `d` before the first
to `e` after the last. What follows a return can be at any depth. -/
inductive Flow (depths : Nat → Int) : Int → List (Int × Instruction) → Int → Prop where
  | nil {d : Int} : Flow depths d [] d
  | next {d move e : Int} {i : Instruction} {rest : List (Int × Instruction)} :
      i.Fits depths d → i.stackMove? = some move → Flow depths (d + move) rest e →
      Flow depths d ((d, i) :: rest) e
  | ret {d e : Int} {rest : List (Int × Instruction)} :
      Flow depths d rest e → Flow depths 0 ((0, .pop .pc) :: rest) e

/-- The instructions can be given depths that fit together. -/
def Flows (depths : Nat → Int) (d : Int) (code : List Instruction) (e : Int) : Prop :=
  ∃ marked : List (Int × Instruction), marked.map (·.2) = code ∧ Flow depths d marked e

section Flow

variable {depths : Nat → Int} {d e f : Int} {marked rest : List (Int × Instruction)}

theorem Flow.append (h : Flow depths d marked e) (h' : Flow depths e rest f) :
    Flow depths d (marked ++ rest) f := by
  induction h with
  | nil => exact h'
  | next hfits hmove _ ih => exact .next hfits hmove (ih h')
  | ret _ ih => exact .ret (ih h')

/-- The first depth is the one before the code. -/
theorem Flow.head (h : Flow depths d marked e) (last : Instruction) :
    ∃ j, (marked ++ [(e, last)])[0]? = some (d, j) := by
  cases h <;> simp

/-- An instruction that does not return fits its depth, and moves to the depth of the one
below. -/
theorem Flow.step (h : Flow depths d marked e) (last : Instruction) {index : Nat} {a : Int}
    {i : Instruction} (hi : marked[index]? = some (a, i)) :
    (i = .pop .pc ∧ a = 0) ∨ i.Fits depths a ∧ ∃ move, i.stackMove? = some move ∧
      ∃ j, (marked ++ [(e, last)])[index + 1]? = some (a + move, j) := by
  induction h generalizing index with
  | nil => simp at hi
  | @next d move e j rest hfits hmove htail ih =>
    cases index with
    | succ k => simpa using ih (by simpa using hi)
    | zero =>
      obtain ⟨rfl, rfl⟩ : d = a ∧ j = i := by simpa using hi
      -- The depth below is the first one of what follows.
      exact .inr ⟨hfits, move, hmove, by simpa using htail.head last⟩
  | ret _ ih =>
    cases index with
    | succ k => simpa using ih (by simpa using hi)
    | zero =>
      obtain ⟨rfl, rfl⟩ : 0 = a ∧ Instruction.pop .pc = i := by simpa using hi
      exact .inl ⟨rfl, rfl⟩

end Flow

namespace Flows

variable {depths : Nat → Int} {d e f : Int} {a b : List Instruction} {i : Instruction}

theorem nil : Flows depths d [] d := ⟨[], rfl, .nil⟩

theorem append (ha : Flows depths d a e) (hb : Flows depths e b f) :
    Flows depths d (a ++ b) f := by
  obtain ⟨marked, rfl, hflow⟩ := ha
  obtain ⟨marked', rfl, hflow'⟩ := hb
  exact ⟨marked ++ marked', List.map_append, hflow.append hflow'⟩

theorem cons {move : Int} (hfits : i.Fits depths d) (hmove : i.stackMove? = some move)
    (hrest : Flows depths (d + move) a e) : Flows depths d (i :: a) e := by
  obtain ⟨marked, rfl, hflow⟩ := hrest
  exact ⟨(d, i) :: marked, rfl, .next hfits hmove hflow⟩

/-- An instruction that leaves the stack pointer alone. -/
theorem cons_still (hfits : i.Fits depths d) (hmove : i.stackMove? = some 0)
    (hrest : Flows depths d a e) : Flows depths d (i :: a) e :=
  cons hfits hmove (by rwa [Int.add_zero])

/-- A return. -/
theorem ret (hrest : Flows depths d a e) : Flows depths 0 (.pop .pc :: a) e := by
  obtain ⟨marked, rfl, hflow⟩ := hrest
  exact ⟨(0, .pop .pc) :: marked, rfl, .ret hflow⟩

end Flows

/-! ## §4 Paths keep to the depths -/

section Paths

variable {depths : Nat → Int} {marked : List (Int × Instruction)} {after : List Instruction}
  {index : Nat} {depth : Int} {i : Instruction}

/-- Marked instructions followed by a return. -/
def returning (marked : List (Int × Instruction)) : List (Int × Instruction) :=
  marked ++ [(0, .pop .pc)]

theorem getElem?_returning (hmarked : (returning marked)[index]? = some (depth, i)) :
    ((returning marked).map (·.2) ++ after)[index]? = some i := by
  obtain ⟨hlt, _⟩ := List.getElem?_eq_some_iff.1 hmarked
  rw [List.getElem?_append_left (by simpa using hlt), List.getElem?_map, hmarked]
  rfl

/-- What one of these instructions does. -/
theorem Flow.returning_step (hflow : Flow depths 0 marked 0)
    (hi : (returning marked)[index]? = some (depth, i)) :
    (i = .pop .pc ∧ depth = 0) ∨ i.Fits depths depth ∧ ∃ move, i.stackMove? = some move ∧
      ∃ j, (returning marked)[index + 1]? = some (depth + move, j) := by
  rw [returning, List.getElem?_append] at hi
  split at hi
  · exact hflow.step _ hi
  · obtain ⟨rfl, rfl⟩ : depth = 0 ∧ i = .pop .pc := by
      simpa using List.mem_of_getElem? hi
    exact .inl ⟨rfl, rfl⟩

/-- A label in such code is among the marked instructions. -/
theorem exists_marked_label (hafter : labelsOf after = []) {name : String}
    (hlabel : ((returning marked).map (·.2) ++ after)[index]? = some (.label name)) :
    ∃ a, (returning marked)[index]? = some (a, .label name) := by
  rw [List.getElem?_append] at hlabel
  split at hlabel
  · rw [List.getElem?_map, Option.map_eq_some_iff] at hlabel
    obtain ⟨⟨a, j⟩, hj, rfl⟩ := hlabel
    exact ⟨a, hj⟩
  · have hmem : name ∈ labelsOf after :=
      List.mem_filterMap.2 ⟨_, List.mem_of_getElem? hlabel, rfl⟩
    simp [hafter] at hmem

/-- Every path arrives at the depth that the instruction has been given, and does not run past the
last return. -/
theorem Reaches.exists_marked (hflow : Flow depths 0 marked 0) (hafter : labelsOf after = [])
    (h : Reaches ((returning marked).map (·.2) ++ after) index depth) :
    ∃ i, (returning marked)[index]? = some (depth, i) := by
  -- By induction on the path. Going on to the next instruction is a step of the flow; a jump lands
  -- at the depth that both its ends give to the label.
  induction h with
  | start => exact hflow.head _
  | @next index depth move i _ hi hcontinues hmove ih =>
    obtain ⟨j, hj⟩ := ih
    obtain rfl : j = i := Option.some.inj ((getElem?_returning hj).symm.trans hi)
    rcases hflow.returning_step hj with ⟨rfl, _⟩ | ⟨_, move', hmove', hnext⟩
    · cases hcontinues
    · obtain rfl : move' = move := Option.some.inj (hmove'.symm.trans hmove)
      exact hnext
  | @jump index target depth cond name _ hi hlabel ih =>
    obtain ⟨j, hj⟩ := ih
    obtain rfl : j = .branch false cond name :=
      Option.some.inj ((getElem?_returning hj).symm.trans hi)
    obtain ⟨a, ha⟩ := exists_marked_label hafter hlabel
    -- The branch and the label have the depth of the same number.
    rcases hflow.returning_step hj with ⟨hpop, _⟩ | ⟨hbranch, _⟩
    · cases hpop
    rcases hflow.returning_step ha with ⟨hpop, _⟩ | ⟨htarget, _⟩
    · cases hpop
    obtain ⟨n, rfl, rfl⟩ := hbranch.branch _ _ rfl
    obtain rfl := htarget.label n rfl
    exact ⟨_, ha⟩

/-- Code with fitting depths is disciplined, provided that its branches find their labels. -/
theorem Flow.disciplined (hflow : Flow depths 0 marked 0) (hafter : labelsOf after = [])
    (hlabels : ∀ cond name, .branch false cond name ∈ marked.map (·.2) →
      name ∈ labelsOf (marked.map (·.2))) :
    Disciplined ((returning marked).map (·.2) ++ after) where
  goesOn := by
    intro index depth hreach
    -- A path is always at an instruction of the flow, and so at the depth marked there.
    obtain ⟨i, hi⟩ := hreach.exists_marked hflow hafter
    refine ⟨i, getElem?_returning hi, ?_⟩
    rcases hflow.returning_step hi with ⟨rfl, _⟩ | ⟨_, move, hmove, _⟩
    · exact .inl rfl
    · refine .inr ⟨by simp [hmove], ?_⟩
      rintro cond name rfl
      have hmarked : (depth, .branch false cond name) ∈ marked := by
        simpa [returning] using List.mem_of_getElem? hi
      have hname := hlabels cond name (List.mem_map.2 ⟨_, hmarked, rfl⟩)
      obtain ⟨j, hj, hname⟩ := List.mem_filterMap.1 hname
      obtain rfl : j = .label name := by
        cases j <;> simp_all [Instruction.defines?]
      exact List.getElem?_of_mem (by simp [returning, hj])
  balanced := by
    intro index depth hreach hpop
    obtain ⟨i, hi⟩ := hreach.exists_marked hflow hafter
    obtain rfl : i = .pop .pc := Option.some.inj ((getElem?_returning hi).symm.trans hpop)
    rcases hflow.returning_step hi with ⟨_, rfl⟩ | ⟨_, move, hmove, _⟩
    · rfl
    · cases hmove
  joined := by
    intro index depth depth' hreach hreach'
    obtain ⟨i, hi⟩ := hreach.exists_marked hflow hafter
    obtain ⟨i', hi'⟩ := hreach'.exists_marked hflow hafter
    exact (Prod.mk.inj (Option.some.inj (hi.symm.trans hi'))).1
  below := by
    intro index depth hreach
    obtain ⟨i, hi⟩ := hreach.exists_marked hflow hafter
    rcases hflow.returning_step hi with ⟨_, rfl⟩ | ⟨hfits, _⟩
    · exact Int.le_refl 0
    · exact hfits.below
  slots := by
    intro index depth move offset i hreach hi hmove haccess
    obtain ⟨j, hj⟩ := hreach.exists_marked hflow hafter
    obtain rfl : j = i := Option.some.inj ((getElem?_returning hj).symm.trans hi)
    rcases hflow.returning_step hj with ⟨rfl, _⟩ | ⟨hfits, _⟩
    · cases hmove
    · exact hfits.slot move offset hmove haccess

end Paths

/-! ## §5 Depths of single steps -/

/-- The pieces of a distance make up the whole. -/
theorem sum_chunks (limit bytes : Nat) : (chunks limit bytes).sum = bytes := by
  have hwhole := Nat.div_add_mod' bytes limit
  unfold chunks
  split <;> simp <;> omega

/-- The registers whose writing leaves the stack pointer and the flow of control alone. -/
def Harmless (r : Register) : Prop := r ≠ .sp ∧ r ≠ .pc

theorem writable_harmless (count : Nat) : Writable (.ofCount count) Harmless where
  free := by
    intro r hr
    have hgeneral : r ∈ Register.general := List.mem_of_mem_take (List.mem_filter.1 hr).1
    constructor <;> (rintro rfl; revert hgeneral; decide)
  r0 := by constructor <;> decide
  r1 := by constructor <;> decide

namespace Instruction

variable {depths : Nat → Int} {d : Int} {i : Instruction}

/-- Writing other registers moves nothing. -/
theorem stackMove?_of_harmless (h : ∀ r ∈ i.written, Harmless r) : i.stackMove? = some 0 := by
  have hsp : .sp ∉ i.written := fun hmem => (h _ hmem).1 rfl
  have hpc : .pc ∉ i.written := fun hmem => (h _ hmem).2 rfl
  unfold stackMove?
  split <;> simp_all [written, Address.written]

/-- An instruction that neither branches nor defines a label nor accesses the stack fits
everywhere. -/
theorem Fits.of_plain (hd : 0 ≤ d) (hlabel : i.defines? = none)
    (hbranch : ∀ cond name, i ≠ .branch false cond name) (haccess : i.stackAccess? = none) :
    i.Fits depths d where
  below := hd
  label := by
    rintro n rfl
    cases hlabel
  branch := fun cond name h => absurd h (hbranch cond name)
  slot := by simp [haccess]

/-- A step that moves the stack pointer down. -/
theorem fits_move (op : ArithOp) (bytes : Nat) (hd : 0 ≤ d) :
    (Instruction.op op .sp .sp (.imm bytes)).Fits depths d :=
  .of_plain hd rfl (fun _ _ h => by cases h) rfl

theorem fits_label {n : Nat} (hd : 0 ≤ d) (hn : depths n = d) :
    (Instruction.label (localLabel n)).Fits depths d where
  below := hd
  label := by
    rintro m h
    cases localLabel_injective (Instruction.label.inj h)
    exact hn
  branch := fun _ _ h => by cases h
  slot := fun _ _ _ h => by cases h

theorem fits_branch {n : Nat} (cond : Option Condition) (hd : 0 ≤ d) (hn : depths n = d) :
    (Instruction.branch false cond (localLabel n)).Fits depths d where
  below := hd
  label := fun _ h => by cases h
  branch := by
    rintro _ _ ⟨⟩
    exact ⟨n, rfl, hn⟩
  slot := fun _ _ _ h => by cases h

end Instruction

namespace Flows

variable {depths : Nat → Int} {d : Int}

/-- Moving the stack pointer down, piece by piece. -/
theorem reserve (limit bytes : Nat) (hd : 0 ≤ d) :
    Flows depths d (adjustStack .sub limit bytes) (d + bytes) := by
  have hsteps (steps : List Nat) : ∀ d : Int, 0 ≤ d → Flows depths d
      (steps.map fun (step : Nat) => .op .sub .sp .sp (.imm step)) (d + (steps.sum : Nat)) := by
    induction steps with
    | nil => intro d _; simpa using nil
    | cons step rest ih =>
      intro d hd
      have hrest := ih (d + step) (by omega)
      rw [Int.add_assoc, ← Int.natCast_add] at hrest
      exact cons (Instruction.fits_move .sub step hd) rfl hrest
  have hall := hsteps (chunks limit bytes) d hd
  rwa [sum_chunks] at hall

/-- Moving the stack pointer up, piece by piece. -/
theorem unreserve (limit bytes : Nat) (hd : 0 ≤ d) :
    Flows depths (d + bytes) (adjustStack .add limit bytes) d := by
  have hsteps (steps : List Nat) : Flows depths (d + (steps.sum : Nat))
      (steps.map fun (step : Nat) => .op .add .sp .sp (.imm step)) d := by
    induction steps with
    | nil => simpa using nil
    | cons step rest ih =>
      refine cons (Instruction.fits_move .add step (by omega)) rfl ?_
      have hleft : d + ((step :: rest).sum : Nat) + -(step : Int) = d + (rest.sum : Nat) := by
        rw [List.sum_cons]
        omega
      rwa [hleft]
  have hall := hsteps (chunks limit bytes)
  rwa [sum_chunks] at hall

end Flows

section Steps

variable {depths : Nat → Int} {depth : Int}

/-- A straight step stays at its depth. -/
theorem Straight.flows {p : Pseudo} (h : Straight Harmless (InFrame depth) p) (limit : Nat)
    (message : String → String) (hd : 0 ≤ depth) :
    Flows depths depth (p.plain limit message) depth := by
  -- A single instruction that is neither a label nor a branch and writes only harmless registers.
  have hone {i : Instruction} (hwritten : ∀ r ∈ i.written, Harmless r)
      (hlabel : i.defines? = none) (hbranch : ∀ cond name, i ≠ .branch false cond name)
      (hslot : ∀ offset, i.stackAccess? = some offset → InFrame depth offset) :
      Flows depths depth [i] depth := by
    have hmove := Instruction.stackMove?_of_harmless hwritten
    refine .cons_still ⟨hd, ?_, fun cond name h => absurd h (hbranch cond name), ?_⟩ hmove .nil
    · rintro n rfl
      cases hlabel
    · intro move offset hmove' haccess
      obtain rfl : 0 = move := Option.some.inj (hmove.symm.trans hmove')
      simpa using hslot offset haccess
  -- What is loaded into or computed in one register is written nowhere else.
  have hsingle {r : Register} (hr : Harmless r) : ∀ s ∈ [r], Harmless s := by simpa using hr
  cases h with
  | constant hr | mov hr | text hr | arith hr =>
    exact hone (hsingle hr) rfl (fun _ _ h => by cases h) (fun _ h => by cases h)
  | loadSlot hr hslot =>
    refine hone (hsingle hr) rfl (fun _ _ h => by cases h) ?_
    rintro _ ⟨⟩
    exact hslot
  | storeSlot hslot =>
    refine hone (fun _ h => by cases h) rfl (fun _ _ h => by cases h) ?_
    rintro _ ⟨⟩
    exact hslot
  | @load _ _ base _ hr hbase =>
    refine hone (hsingle hr) rfl (fun _ _ h => by cases h) ?_
    cases base <;> first | exact absurd rfl hbase | exact fun _ h => by cases h
  | @store _ _ base _ hbase =>
    refine hone (fun _ h => by cases h) rfl (fun _ _ h => by cases h) ?_
    cases base <;> first | exact absurd rfl hbase | exact fun _ h => by cases h
  | cmp => exact hone (fun _ h => by cases h) rfl (fun _ _ h => by cases h) (fun _ h => by cases h)
  | smull hlo hhi =>
    refine hone ?_ rfl (fun _ _ h => by cases h) (fun _ h => by cases h)
    intro r hr
    rcases List.mem_pair.1 hr with rfl | rfl
    · exact hlo
    · exact hhi
  | routine | library =>
    exact hone (hsingle ⟨by decide, by decide⟩) rfl (fun _ _ h => by cases h) (fun _ h => by cases h)

theorem StraightCode.flows {code : List Pseudo} (h : StraightCode Harmless (InFrame depth) code)
    (limit : Nat) (message : String → String) (hd : 0 ≤ depth) :
    Flows depths depth (code.flatMap (·.plain limit message)) depth := by
  induction code with
  | nil => exact .nil
  | cons p rest ih =>
    rw [StraightCode.cons_iff] at h
    rw [List.flatMap_cons]
    exact (h.1.flows limit message hd).append (ih h.2)

/-- Pushing arguments goes down by a slot for each of them. -/
theorem Pushes.flows {count : Nat} {code : List Pseudo}
    (h : Pushes Harmless (InPushed depth) count code) (limit : Nat) (message : String → String)
    (hd : 0 ≤ depth) :
    Flows depths depth (code.flatMap (·.plain limit message))
      (depth + (slotBytes * count : Nat)) := by
  induction h with
  | nil => simpa using .nil
  | @snoc count code arg width r _ harg ih =>
    rw [List.flatMap_append, List.flatMap_append]
    refine ih.append ((harg.flows limit message (by omega)).append ?_)
    have hnext : depth + (slotBytes * (count + 1) : Nat) =
        depth + (slotBytes * count : Nat) + slotBytes := by
      rw [Nat.mul_add_one, Int.natCast_add, Int.add_assoc]
    rw [hnext]
    refine .cons ⟨by omega, fun _ h => (by cases h), fun _ _ h => (by cases h), ?_⟩ ?_ .nil
    -- The argument is stored in the slot that the store itself has just reserved.
    · rintro move offset ⟨⟩ ⟨⟩
      exact .inl ⟨Int.le_refl 0, by omega⟩
    · rfl

end Steps

/-! ## §6 Depths of structured code -/

/-- Two assignments of depths agree on the numbers from `first` up to, but without, `next`. -/
def AgreeOn (first next : Nat) (depths inner : Nat → Int) : Prop :=
  ∀ k, first ≤ k → k < next → depths k = inner k

/-- Assignments for adjacent ranges of numbers can be put together. -/
theorem exists_joint {first mid next : Nat} (h : first ≤ mid) (h' : mid ≤ next)
    (f g : Nat → Int) : ∃ inner, ∀ depths, AgreeOn first next depths inner →
      AgreeOn first mid depths f ∧ AgreeOn mid next depths g := by
  -- Each number belongs to one of the two ranges.
  refine ⟨fun k => if k < mid then f k else g k, fun depths hdepths => ⟨?_, ?_⟩⟩
  · intro k hk hk'
    rw [hdepths k hk (Nat.lt_of_lt_of_le hk' h')]
    exact if_pos hk'
  · intro k hk hk'
    rw [hdepths k (Nat.le_trans h hk) hk']
    exact if_neg (Nat.not_lt.2 hk)

/-- What structured code puts between its straight parts and its calls: labels, jumps, returns and
steps of the stack pointer. -/
def Instruction.isGlue : Instruction → Bool
  | .label _ | .branch false .. | .pop .pc | .arith _ _ .sp .sp (.imm _) => true
  | _ => false

/-- A property of marked code, which may find the things of a list in it in their order. It holds of
what structured code is put together from as soon as it holds of the parts. -/
structure Compositional {α : Type} (R : List α → List (Int × Instruction) → Prop) : Prop where
  glue : ∀ {marked}, (∀ m ∈ marked, m.2.isGlue) → R [] marked
  append : ∀ {xs ys a b}, R xs a → R ys b → R (xs ++ ys) (a ++ b)

section Charts

variable {α : Type} {R : List α → List (Int × Instruction) → Prop} {depths : Nat → Int}
  {d e f : Int} {xs ys : List α} {a b : List Instruction} {i : Instruction}

/-- The instructions can be given depths that fit together and have the property. -/
def Charted (R : List α → List (Int × Instruction) → Prop) (depths : Nat → Int) (d : Int)
    (xs : List α) (code : List Instruction) (e : Int) : Prop :=
  ∃ marked : List (Int × Instruction), marked.map (·.2) = code ∧ Flow depths d marked e ∧
    R xs marked

namespace Charted

theorem append (hR : Compositional R) (ha : Charted R depths d xs a e)
    (hb : Charted R depths e ys b f) : Charted R depths d (xs ++ ys) (a ++ b) f := by
  obtain ⟨marked, rfl, hflow, hmarked⟩ := ha
  obtain ⟨marked', rfl, hflow', hmarked'⟩ := hb
  exact ⟨marked ++ marked', List.map_append, hflow.append hflow', hR.append hmarked hmarked'⟩

theorem glue (hR : Compositional R) (h : Flows depths d a e) (hglue : ∀ i ∈ a, i.isGlue) :
    Charted R depths d [] a e := by
  obtain ⟨marked, rfl, hflow⟩ := h
  exact ⟨marked, rfl, hflow, hR.glue fun m hm => hglue _ (List.mem_map_of_mem hm)⟩

theorem nil_append (hR : Compositional R) (ha : Charted R depths d [] a e)
    (hb : Charted R depths e xs b f) : Charted R depths d xs (a ++ b) f :=
  ha.append hR hb

theorem append_nil (hR : Compositional R) (ha : Charted R depths d xs a e)
    (hb : Charted R depths e [] b f) : Charted R depths d xs (a ++ b) f := by
  have hall := ha.append hR hb
  rwa [List.append_nil] at hall

theorem append_glue (hR : Compositional R) (ha : Charted R depths d xs a e)
    (hb : Flows depths e b f) (hglue : ∀ i ∈ b, i.isGlue) : Charted R depths d xs (a ++ b) f :=
  ha.append_nil hR (.glue hR hb hglue)

theorem glue_append (hR : Compositional R) (ha : Flows depths d a e) (hglue : ∀ i ∈ a, i.isGlue)
    (hb : Charted R depths e xs b f) : Charted R depths d xs (a ++ b) f :=
  .nil_append hR (.glue hR ha hglue) hb

/-- A label or jump above other code. -/
theorem cons_glue (hR : Compositional R) (hfits : i.Fits depths d) (hmove : i.stackMove? = some 0)
    (hglue : i.isGlue) (hrest : Charted R depths d xs a e) : Charted R depths d xs (i :: a) e :=
  glue_append hR (.cons_still hfits hmove .nil) (by simpa using hglue) hrest

end Charted

theorem isGlue_adjustStack {op : ArithOp} {limit bytes : Nat} :
    ∀ i ∈ adjustStack op limit bytes, i.isGlue := by
  intro i hi
  obtain ⟨_, _, rfl⟩ := List.mem_map.1 hi
  rfl

/-- Code that starts and ends at a depth, whatever the depths of the labels. -/
def Steady (R : List α → List (Int × Instruction) → Prop) (limit : Nat) (message : String → String)
    (depth : Int) (xs : List α) (code : List Pseudo) : Prop :=
  ∀ depths, Charted R depths depth xs (code.flatMap (·.plain limit message)) depth

/-- Code that starts and ends at a depth once its local labels, from `n` up to, but without, `n'`,
have the right depths. The depths of other labels do not matter. -/
structure Charts (R : List α → List (Int × Instruction) → Prop) (limit : Nat)
    (message : String → String) (depth : Int) (n n' : Nat) (xs : List α) (code : List Pseudo) :
    Prop where
  label_le : n ≤ n'
  charted : ∃ inner, ∀ depths, AgreeOn n n' depths inner →
    Charted R depths depth xs (code.flatMap (·.plain limit message)) depth

section Forms

variable {limit : Nat} {message : String → String} {depth : Int} {n n' n'' : Nat}

theorem Steady.charts {code : List Pseudo} (h : Steady R limit message depth xs code) (n : Nat) :
    Charts R limit message depth n n xs code :=
  ⟨Nat.le_refl n, fun _ => 0, fun depths _ => h depths⟩

theorem Steady.append_nil {code code' : List Pseudo} (hR : Compositional R)
    (h : Steady R limit message depth xs code) (h' : Steady R limit message depth [] code') :
    Steady R limit message depth xs (code ++ code') := by
  intro depths
  rw [List.flatMap_append]
  exact (h depths).append_nil hR (h' depths)

namespace Charts

theorem append {code code' : List Pseudo} (hR : Compositional R)
    (h : Charts R limit message depth n n' xs code)
    (h' : Charts R limit message depth n' n'' ys code') :
    Charts R limit message depth n n'' (xs ++ ys) (code ++ code') := by
  obtain ⟨hle, inner, hcharted⟩ := h
  obtain ⟨hle', inner', hcharted'⟩ := h'
  obtain ⟨joint, hjoint⟩ := exists_joint hle hle' inner inner'
  refine ⟨Nat.le_trans hle hle', joint, fun depths hdepths => ?_⟩
  obtain ⟨hfirst, hsecond⟩ := hjoint depths hdepths
  rw [List.flatMap_append]
  exact (hcharted depths hfirst).append hR (hcharted' depths hsecond)

theorem scope {slots : Nat} {body : List Pseudo} (hR : Compositional R) (hd : 0 ≤ depth)
    (h : Charts R limit message (depth + (slotBytes * slots : Nat)) n n' xs body) :
    Charts R limit message depth n n' xs (scopeCode slots body) := by
  obtain ⟨hle, inner, hcharted⟩ := h
  refine ⟨hle, inner, fun depths hdepths => ?_⟩
  simp only [scopeCode, List.flatMap_cons, List.flatMap_append, List.flatMap_nil,
    List.append_nil, Pseudo.plain]
  exact .glue_append hR (Flows.reserve limit _ hd) isGlue_adjustStack
    ((hcharted depths hdepths).append_glue hR (Flows.unreserve limit _ hd) isGlue_adjustStack)

/-- What comes after a return starts over at the depth before it. -/
theorem ret (hR : Compositional R) (hd : 0 ≤ depth) (n : Nat) :
    Charts R limit message depth n n [] [.unreserve depth.toNat, .instr (.pop .pc)] := by
  refine Steady.charts (fun depths => .glue hR ?_ ?_) n
  · have hup : Flows depths (0 + depth.toNat) (adjustStack .add limit depth.toNat) 0 :=
      .unreserve limit _ (Int.le_refl 0)
    rw [Int.zero_add, Int.toNat_of_nonneg hd] at hup
    exact hup.append (.ret .nil)
  · intro i hi
    simp only [List.flatMap_cons, List.flatMap_nil, List.append_nil, Pseudo.plain,
      List.mem_append, List.mem_singleton] at hi
    rcases hi with hi | rfl
    · exact isGlue_adjustStack i hi
    · rfl

theorem ifThen {cond arm : List Pseudo} (hR : Compositional R) (hd : 0 ≤ depth)
    (hcond : Steady R limit message depth [] cond)
    (harm : Charts R limit message depth (n + 1) n' xs arm) :
    Charts R limit message depth n n' xs (ifThenCode n cond arm) := by
  obtain ⟨hle, innerArm, hcharted⟩ := harm
  obtain ⟨inner, hjoint⟩ := exists_joint (Nat.le_succ n) hle (fun _ => depth) innerArm
  refine ⟨by omega, inner, fun depths hdepths => ?_⟩
  obtain ⟨hown, harm⟩ := hjoint depths hdepths
  have hdone : depths n = depth := hown n (by omega) (by omega)
  simp only [ifThenCode, List.flatMap_cons, List.flatMap_append, List.flatMap_nil,
    List.append_nil, Pseudo.plain, List.singleton_append]
  refine (hcond depths).nil_append hR ?_
  refine .cons_glue hR (Instruction.fits_branch _ hd hdone) rfl rfl ?_
  refine (hcharted depths harm).append_glue hR ?_ (by simp [Instruction.isGlue])
  exact .cons_still (Instruction.fits_label hd hdone) rfl .nil

theorem ifElse {cond thenArm elseArm : List Pseudo} (hR : Compositional R) (hd : 0 ≤ depth)
    (hcond : Steady R limit message depth [] cond)
    (hthen : Charts R limit message depth (n + 2) n' xs thenArm)
    (helse : Charts R limit message depth n' n'' ys elseArm) :
    Charts R limit message depth n n'' (xs ++ ys) (ifElseCode n (n + 1) cond thenArm elseArm) := by
  obtain ⟨hleThen, innerThen, hchartedThen⟩ := hthen
  obtain ⟨hleElse, innerElse, hchartedElse⟩ := helse
  obtain ⟨innerArms, hjointArms⟩ := exists_joint hleThen hleElse innerThen innerElse
  obtain ⟨inner, hjoint⟩ := exists_joint (Nat.le_add_right n 2) (Nat.le_trans hleThen hleElse)
    (fun _ => depth) innerArms
  refine ⟨by omega, inner, fun depths hdepths => ?_⟩
  obtain ⟨hown, harms⟩ := hjoint depths hdepths
  obtain ⟨hthen, helse⟩ := hjointArms depths harms
  have hdone : depths n = depth := hown n (by omega) (by omega)
  have hotherwise : depths (n + 1) = depth := hown (n + 1) (by omega) (by omega)
  simp only [ifElseCode, List.flatMap_cons, List.flatMap_append, List.flatMap_nil,
    List.append_nil, Pseudo.plain, List.singleton_append]
  refine (hcond depths).nil_append hR ?_
  refine .cons_glue hR (Instruction.fits_branch _ hd hotherwise) rfl rfl ?_
  refine (hchartedThen depths hthen).append hR ?_
  refine .cons_glue hR (Instruction.fits_branch _ hd hdone) rfl rfl ?_
  refine .cons_glue hR (Instruction.fits_label hd hotherwise) rfl rfl ?_
  refine (hchartedElse depths helse).append_glue hR ?_ (by simp [Instruction.isGlue])
  exact .cons_still (Instruction.fits_label hd hdone) rfl .nil

theorem loop {round cond : List Pseudo} (hR : Compositional R) (hd : 0 ≤ depth)
    (hround : Charts R limit message depth (n + 2) n' xs round)
    (hcond : Steady R limit message depth [] cond) :
    Charts R limit message depth n n' xs (loopCode n (n + 1) round cond) := by
  obtain ⟨hle, innerRound, hcharted⟩ := hround
  obtain ⟨inner, hjoint⟩ := exists_joint (Nat.le_add_right n 2) hle (fun _ => depth) innerRound
  refine ⟨by omega, inner, fun depths hdepths => ?_⟩
  obtain ⟨hown, hround⟩ := hjoint depths hdepths
  have hcheck : depths n = depth := hown n (by omega) (by omega)
  have htop : depths (n + 1) = depth := hown (n + 1) (by omega) (by omega)
  simp only [loopCode, List.flatMap_cons, List.flatMap_append, List.flatMap_nil,
    List.append_nil, Pseudo.plain, List.singleton_append]
  refine .cons_glue hR (Instruction.fits_branch _ hd hcheck) rfl rfl ?_
  refine .cons_glue hR (Instruction.fits_label hd htop) rfl rfl ?_
  refine (hcharted depths hround).append_nil hR ?_
  refine .cons_glue hR (Instruction.fits_label hd hcheck) rfl rfl ?_
  refine (hcond depths).append_glue hR ?_ (by simp [Instruction.isGlue, Instruction.jumpIf])
  exact .cons_still (Instruction.fits_branch _ hd htop) rfl .nil

theorem untilLoop {round cond : List Pseudo} (hR : Compositional R) (hd : 0 ≤ depth)
    (hround : Charts R limit message depth (n + 1) n' xs round)
    (hcond : Steady R limit message depth [] cond) :
    Charts R limit message depth n n' xs (untilCode n round cond) := by
  obtain ⟨hle, innerRound, hcharted⟩ := hround
  obtain ⟨inner, hjoint⟩ := exists_joint (Nat.le_succ n) hle (fun _ => depth) innerRound
  refine ⟨by omega, inner, fun depths hdepths => ?_⟩
  obtain ⟨hown, hround⟩ := hjoint depths hdepths
  have htop : depths n = depth := hown n (by omega) (by omega)
  simp only [untilCode, List.flatMap_cons, List.flatMap_append, List.flatMap_nil,
    List.append_nil, Pseudo.plain, List.singleton_append]
  refine .cons_glue hR (Instruction.fits_label hd htop) rfl rfl ?_
  refine (hcharted depths hround).append_nil hR ?_
  refine (hcond depths).append_glue hR ?_ (by simp [Instruction.isGlue, Instruction.jumpIf])
  exact .cons_still (Instruction.fits_branch _ hd htop) rfl .nil

end Charts

end Forms

end Charts

section Structured

variable {known : String → Prop} {depth : Int} {n n' : Nat} {code : List Pseudo}

/-- Depths alone, with nothing else asked of the code. -/
theorem compositional_trivial :
    Compositional fun (_ : List Unit) (_ : List (Int × Instruction)) => True where
  glue := fun _ => trivial
  append := fun _ _ => trivial

/-- Structured code starts and ends at its depth, once its local labels have the right depths. The
depths of other labels do not matter. -/
theorem Structured.flows (h : Structured Harmless known depth n n' code) (limit : Nat)
    (message : String → String) (hd : 0 ≤ depth) :
    ∃ inner, ∀ depths, AgreeOn n n' depths inner →
      Flows depths depth (code.flatMap (·.plain limit message)) depth := by
  have hsteady {depth : Int} {code : List Pseudo}
      (h : ∀ depths, Flows depths depth (code.flatMap (·.plain limit message)) depth) :
      Steady (fun (_ : List Unit) _ => True) limit message depth [] code := by
    intro depths
    obtain ⟨marked, hmarked, hflow⟩ := h depths
    exact ⟨marked, hmarked, hflow, trivial⟩
  -- The charts of each form are put together once, for any property of marked code; here nothing is
  -- asked but the depths.
  have hcharts : Charts (fun (_ : List Unit) _ => True) limit message depth n n' [] code := by
    induction h with
    | straight hcode => exact (hsteady fun _ => hcode.flows limit message hd).charts _
    | append _ _ iha ihb => exact (iha hd).append compositional_trivial (ihb hd)
    | @call depth n count name code _ hpushes =>
      refine (hsteady fun depths => ?_).charts _
      rw [List.flatMap_append]
      refine (hpushes.flows limit message hd).append ?_
      refine .cons_still (.of_plain (by omega) rfl (fun _ _ h => by cases h) rfl) rfl ?_
      simpa [Pseudo.plain] using Flows.unreserve limit (slotBytes * count) hd
    | scope _ ih => exact .scope compositional_trivial hd (ih (by omega))
    | ret => exact .ret compositional_trivial hd _
    | ifThen hcond _ ih =>
      exact .ifThen compositional_trivial hd (hsteady fun _ => hcond.flows limit message hd) (ih hd)
    | ifElse hcond _ _ ihThen ihElse =>
      exact .ifElse compositional_trivial hd (hsteady fun _ => hcond.flows limit message hd)
        (ihThen hd) (ihElse hd)
    | loop _ hcond ih =>
      exact .loop compositional_trivial hd (ih hd) (hsteady fun _ => hcond.flows limit message hd)
    | untilLoop _ hcond ih =>
      exact .untilLoop compositional_trivial hd (ih hd)
        (hsteady fun _ => hcond.flows limit message hd)
  obtain ⟨_, inner, hcharted⟩ := hcharts
  refine ⟨inner, fun depths hdepths => ?_⟩
  obtain ⟨marked, hmarked, hflow, _⟩ := hcharted depths hdepths
  exact ⟨marked, hmarked, hflow⟩

end Structured

/-! ## §7 Programs -/

section Programs

variable {known : String → Prop} {first next limit : Nat} {message : String → String}

/-- The jumps of structured code go to its local labels. -/
theorem Step.exists_target {W : Register → Prop} {p : Pseudo} (h : Step W known first next p)
    {cond : Option Condition} {name : String}
    (hi : .branch false cond name ∈ p.plain limit message) :
    ∃ n, first ≤ n ∧ n < next ∧ name = localLabel n := by
  cases h with
  | straight h => cases h <;> cases List.mem_singleton.1 hi
  | push | call | pop | label => cases List.mem_singleton.1 hi
  | reserve | unreserve =>
    obtain ⟨_, _, hmove⟩ := List.mem_map.1 hi
    cases hmove
  | branch hfirst hnext =>
    cases List.mem_singleton.1 hi
    exact ⟨_, hfirst, hnext, rfl⟩

/-- A jump in structured code finds its label. -/
theorem Structured.target_mem {W : Register → Prop} {depth : Int} {code : List Pseudo}
    (h : Structured W known depth first next code) {cond : Option Condition} {name : String}
    (hi : .branch false cond name ∈ code.flatMap (·.plain limit message)) :
    name ∈ labelsOf (code.flatMap (·.plain limit message)) := by
  obtain ⟨p, hp, hi⟩ := List.mem_flatMap.1 hi
  obtain ⟨n, hfirst, hnext, rfl⟩ := (h.steps p hp).exists_target hi
  rw [labelsOf_plain, h.labels_perm.mem_iff]
  exact List.mem_map.2 ⟨n, List.mem_range'_1.2 ⟨hfirst, by omega⟩, rfl⟩

/-- The sequence of a body is disciplined from the instruction below the saving of the link
register on. -/
theorem Structured.disciplined {code : List Pseudo}
    (h : Structured Harmless known 0 first next code) (limit : Nat)
    (message : String → String) (label : String) :
    ∃ rest, (bodySequence label (code.flatMap (·.plain limit message))).code =
      .label label :: .push .lr :: rest ∧ Disciplined rest := by
  obtain ⟨inner, hflows⟩ := h.flows limit message (Int.le_refl 0)
  -- The branches of a body find their labels in it, so the depths chosen for these are enough.
  obtain ⟨marked, hmarked, hflow⟩ := hflows inner fun _ _ _ => rfl
  refine ⟨(returning marked).map (·.2) ++ [.directive .ltorg], ?_, ?_⟩
  · simp [bodySequence, opening, Ending.code, returning, hmarked]
  · refine hflow.disciplined rfl fun cond name hi => ?_
    rw [hmarked] at hi ⊢
    exact h.target_mem hi

end Programs

/-- A program from which assembly text is generated keeps its stack in order. The text has a
sequence for the main body and one for each function, and each of these saves the link register
first and is disciplined from there on. -/
theorem Program.generate_disciplined {p : Program} {table : SymbolTable} {config : Config}
    {text : String} (h : p.generate table config = .ok text) :
    ∃ listing, p.assemble table config = .ok listing ∧ text = listing.render ∧
      "main" ∈ listing.names ∧ (∀ f ∈ p.functions, functionLabel f.name ∈ listing.names) ∧
      ∀ sequence ∈ listing.sequences,
        (sequence.name = "main" ∨ ∃ name, sequence.name = functionLabel name) →
        ∃ rest, sequence.code = .label sequence.name :: .push .lr :: rest ∧ Disciplined rest := by
  obtain ⟨listing, hassemble, rfl⟩ := generate_eq_ok.1 h
  obtain ⟨_, assembly, pieces, rfl, hbuilt, hlabels⟩ :=
    assemble_built hassemble (writable_harmless _)
  have hthere : ∀ body ∈ p.bodies table, body.label ∈ assembly.listing.names := by
    intro body hbody
    rw [hbuilt.names_eq]
    exact Piece.name_mem_of_body (hlabels ▸ List.mem_map_of_mem hbody)
  refine ⟨assembly.listing, hassemble, rfl, ?_, ?_, ?_⟩
  · exact hthere (p.body.toMain table) (by simp [bodies])
  · exact fun f hf => hthere (f.toBody table) (by simp [bodies, List.mem_map_of_mem hf])
  · intro sequence hsequence hname
    rw [hbuilt.sequences] at hsequence
    obtain ⟨piece, hpiece, rfl⟩ := List.mem_map.1 hsequence
    cases piece with
    | body label first next code => exact (hbuilt.sound _ hpiece).1.disciplined _ _ label
    | support r =>
      rcases hname with hmain | ⟨name, hfunction⟩
      · exact absurd hmain r.label_ne_main
      · exact absurd hfunction (r.label_ne_functionLabel name)

/-- A program with a function, a loop and scopes in scopes. -/
theorem Program.generate_disciplined_sumProgram :
    ∃ text, sumProgram.generate sumProgram.check.value {} = .ok text ∧
      ∃ listing, sumProgram.assemble sumProgram.check.value {} = .ok listing ∧
        text = listing.render ∧ "main" ∈ listing.names ∧
        (∀ f ∈ sumProgram.functions, functionLabel f.name ∈ listing.names) ∧
        ∀ sequence ∈ listing.sequences,
          (sequence.name = "main" ∨ ∃ name, sequence.name = functionLabel name) →
          ∃ rest, sequence.code = .label sequence.name :: .push .lr :: rest ∧
            Disciplined rest := by
  have hassemble : (sumProgram.assemble sumProgram.check.value {}).isOk := by decide +kernel
  obtain ⟨text, htext⟩ := generate_of_assemble hassemble
  exact ⟨text, htext, generate_disciplined htext⟩

end ArmCompiler
