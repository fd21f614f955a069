import ArmCompiler.Proofs.Frames
import ArmCompiler.WordFrame
import Mathlib.Algebra.Group.Int.Defs

/-!
# Frames and their Words

Every frame without bounds has a frame in words: each of its numbers is cut to a word. Cutting goes
with sums and products, so opening and closing scopes, pushing and popping bytes and looking up
variables are the same before and after it, whatever the sizes. Declaring a variable compares two
depths, and a comparison is the same after cutting only for numbers in the range of a word. A frame
whose innermost scope ends there declares what its words declare.

## Contents
- §1: cutting a frame to words
- §2: operations that go with cutting
- §3: declarations
-/

namespace ArmCompiler

namespace Frame

/-! ## §1 Cutting a frame to words -/

/-- A variable in words. -/
def wordEntry (entry : String × Local) : String × Int32 × Ty :=
  (entry.1, Int32.ofInt entry.2.position, entry.2.ty)

/-- A scope in words. -/
def Scope.word (scope : Scope) : WordFrame.Scope where
  base := Int32.ofInt scope.base
  next := Int32.ofInt (scope.base + slotBytes * scope.locals.length)
  limit := Int32.ofInt (scope.base + slotBytes * scope.slots)
  entries := scope.locals.map wordEntry

/-- A frame in words. -/
def word (frame : Frame) : WordFrame where
  root := { entries := frame.params.map wordEntry }
  scopes := frame.scopes.map Scope.word
  depth := Int32.ofInt frame.depth

theorem slotWord_eq : slotWord = Int32.ofInt slotBytes := Int32.ofInt_eq_ofNat.symm

/-- Looking up a name in words finds the words of what is found without bounds. -/
theorem lookup_wordEntry (entries : List (String × Local)) (name : String) :
    (entries.map wordEntry).lookup name =
      (entries.lookup name).map fun l => (Int32.ofInt l.position, l.ty) := by
  induction entries with
  | nil => rfl
  | cons entry rest ih =>
    obtain ⟨first, l⟩ := entry
    rw [List.map_cons, wordEntry, List.lookup_cons, List.lookup_cons]
    cases name == first
    · exact ih
    · rfl

/-! ## §2 Operations that go with cutting -/

theorem word_ofParams (params : List Param) :
    WordFrame.ofParams params = (ofParams params).word := by
  -- The parameters from a given one on are placed below those before it.
  have hplaced (params : List Param) (first : Nat) (placed : List (String × Int32 × Ty)) :
      (params.foldl (fun (placed : Int32 × List (String × Int32 × Ty)) param =>
        (placed.1 - slotWord, (param.name, placed.1, param.ty) :: placed.2))
        (Int32.ofInt (-(slotBytes * (first + 1) : Nat)), placed)).2 =
      ((params.mapIdx fun index param =>
        (param.name, paramLocal (first + index) param)).map wordEntry).reverse ++ placed := by
    induction params generalizing first placed with
    | nil => rfl
    | cons param rest ih =>
      have hnext : Int32.ofInt (-(slotBytes * (first + 1) : Nat)) - slotWord =
          Int32.ofInt (-(slotBytes * (first + 1 + 1) : Nat)) := by
        rw [slotWord_eq, ← Int32.ofInt_sub]
        congr 1
      rw [List.foldl_cons, hnext, ih, List.mapIdx_cons, List.map_cons, List.reverse_cons,
        List.append_assoc]
      simp only [Nat.add_assoc, Nat.add_comm 1]
      rfl
  have hstart : -slotWord = Int32.ofInt (-(slotBytes * (0 + 1) : Nat)) := by
    rw [slotWord_eq, ← Int32.ofInt_neg]
    rfl
  have hparams := hplaced params 0 []
  rw [← hstart, List.append_nil] at hparams
  simp only [WordFrame.ofParams, word, ofParams, hparams, List.map_reverse, Nat.zero_add]
  rfl

theorem word_openScope (frame : Frame) (count : Nat) :
    frame.word.openScope count =
      (Int32.ofInt (slotBytes * count), (frame.openScope count).word) := by
  have hbytes : slotWord * Int32.ofNat count = Int32.ofInt (slotBytes * count) := by
    rw [slotWord_eq, ← Int32.ofInt_eq_ofNat, ← Int32.ofInt_mul]
  simp [WordFrame.openScope, word, openScope, Scope.word, hbytes, Int32.ofInt_add]

theorem word_closeScope (frame : Frame) :
    frame.word.closeScope = (Int32.ofInt frame.scopeBytes, frame.closeScope.word) := by
  cases hscopes : frame.scopes with
  | nil => simp [WordFrame.closeScope, word, closeScope, scopeBytes, hscopes]
  | cons scope outer =>
    have hbytes : scope.word.limit - scope.word.base = Int32.ofInt (slotBytes * scope.slots) := by
      rw [Scope.word, ← Int32.ofInt_sub]
      congr 1
      omega
    simp [WordFrame.closeScope, word, closeScope, scopeBytes, hscopes, hbytes, Int32.ofInt_sub]

theorem word_pushTemp (frame : Frame) (bytes : Int) :
    frame.word.pushTemp (Int32.ofInt bytes) = (frame.pushTemp bytes).word := by
  simp [WordFrame.pushTemp, word, pushTemp, Int32.ofInt_add]

theorem word_popTemp (frame : Frame) (bytes : Int) :
    frame.word.popTemp (Int32.ofInt bytes) = (frame.popTemp bytes).word := by
  simp [WordFrame.popTemp, word, popTemp, Int32.ofInt_sub]

theorem word_lookup? (frame : Frame) (name : String) :
    frame.word.lookup? name =
      (frame.lookup? name).map fun (offset, ty) => (Int32.ofInt offset, ty) := by
  have hfound : ((frame.word.scopes ++ [frame.word.root]).findSome? fun scope =>
      scope.entries.lookup name) =
        (frame.local? name).map fun l => (Int32.ofInt l.position, l.ty) := by
    have hscopes (scopes : List Scope) : ((scopes.map Scope.word).findSome? fun scope =>
        scope.entries.lookup name) = (scopes.findSome? fun scope =>
          scope.locals.lookup name).map fun l => (Int32.ofInt l.position, l.ty) := by
      induction scopes with
      | nil => rfl
      | cons scope outer ih =>
        rw [List.map_cons, List.findSome?_cons, List.findSome?_cons, Scope.word, lookup_wordEntry]
        cases scope.locals.lookup name
        · exact ih
        · rfl
    rw [List.findSome?_append, word, hscopes, local?]
    cases frame.scopes.findSome? fun scope => scope.locals.lookup name
    · simp [lookup_wordEntry]
    · rfl
  rw [WordFrame.lookup?, hfound, lookup?, Option.map_map, Option.map_map]
  congr 1
  funext l
  simp [word, offset, Int32.ofInt_sub]

/-! ## §3 Declarations -/

/-- The frame with a variable in the next place of its innermost scope, whether or not there is room
for it. -/
def add (frame : Frame) (name : String) (ty : Ty) : Frame :=
  match frame.scopes with
  | [] => frame
  | scope :: outer => { frame with scopes := scope.add name ty :: outer }

theorem run_declare (frame : WordFrame) (name : String) (ty : Ty) :
    (WordFrame.declare name ty).run frame =
      if frame.innermost.limit < frame.innermost.next + slotWord then
        .error (.internal (.noSlotLeft name)) frame
      else
        .ok (frame.depth - (frame.innermost.next + slotWord)) (frame.setInnermost {
          frame.innermost with
          next := frame.innermost.next + slotWord
          entries := (name, frame.innermost.next + slotWord, ty) ::
            frame.innermost.entries }) := by
  unfold WordFrame.declare
  rw [EStateM.run_bind, EStateM.run_get]
  dsimp only
  by_cases hfull : frame.innermost.limit < frame.innermost.next + slotWord
  · rw [if_pos hfull, if_pos hfull]
    rfl
  · rw [if_neg hfull, if_neg hfull]
    rfl

/-- Where no scope is open there is no slot. -/
theorem declare_word_nil {frame : Frame} (hscopes : frame.scopes = []) (name : String) (ty : Ty) :
    (WordFrame.declare name ty).run frame.word =
      .error (.internal (.noSlotLeft name)) frame.word := by
  have hroot : frame.word.innermost = { entries := frame.params.map wordEntry } := by
    simp [WordFrame.innermost, word, hscopes]
  have hfull : (0 : Int32) < 0 + slotWord := by decide
  rw [run_declare, hroot, if_pos hfull]

/-- A variable gets the next place of the innermost scope, unless the words say that this place
lies below the end of the scope. -/
theorem declare_word_cons {frame : Frame} {scope : Scope} {outer : List Scope}
    (hscopes : frame.scopes = scope :: outer) (name : String) (ty : Ty) :
    (WordFrame.declare name ty).run frame.word =
      if Int32.ofInt (scope.base + slotBytes * scope.slots) <
          Int32.ofInt (scope.next ty).position then
        .error (.internal (.noSlotLeft name)) frame.word
      else
        .ok (Int32.ofInt (frame.offset (scope.next ty))) (frame.add name ty).word := by
  have hinnermost : frame.word.innermost = scope.word := by
    simp [WordFrame.innermost, word, hscopes]
  have hnext : scope.word.next + slotWord = Int32.ofInt (scope.next ty).position := by
    rw [Scope.word, slotWord_eq, ← Int32.ofInt_add]
    congr 1
    simp only [Scope.next, slotBytes]
    omega
  have hadd : frame.word.setInnermost { scope.word with
      next := Int32.ofInt (scope.next ty).position
      entries := (name, Int32.ofInt (scope.next ty).position, ty) :: scope.word.entries } =
        (frame.add name ty).word := by
    simp [WordFrame.setInnermost, word, add, hscopes, Scope.word, Scope.add, Scope.next, wordEntry,
      Int.mul_add]
  rw [run_declare, hinnermost, hnext, hadd, offset, Int32.ofInt_sub]
  rfl

/-- Numbers in the range of a word compare like their words. -/
theorem ofInt_lt_ofInt {a b : Int} (ha : -2 ^ 31 ≤ a ∧ a < 2 ^ 31) (hb : -2 ^ 31 ≤ b ∧ b < 2 ^ 31) :
    Int32.ofInt a < Int32.ofInt b ↔ a < b := by
  rw [Int32.lt_iff_toInt_lt, Int32.toInt_ofInt_of_le ha.1 ha.2, Int32.toInt_ofInt_of_le hb.1 hb.2]

/-- A frame that is laid out declares what its words declare, as long as one more slot below it is
in the range of a word. -/
theorem declare_word {frame : Frame} (hlaid : frame.Laid)
    (hsmall : frame.depth + slotBytes < 2 ^ 31) (name : String) (ty : Ty) :
    (WordFrame.declare name ty).run frame.word =
      match frame.declare name ty with
      | .ok (offset, after) => .ok (Int32.ofInt offset) after.word
      | .error e => .error e frame.word := by
  cases hscopes : frame.scopes with
  | nil =>
    rw [declare_word_nil hscopes, declare, hscopes]
  | cons scope outer =>
    have hstacked := hlaid.scopes
    rw [hscopes] at hstacked
    obtain ⟨_, hroom, hlimit, houter⟩ := hstacked
    have hbase := houter.limit_nonneg
    have hnext : (scope.next ty).position =
        scope.base + slotBytes * (scope.locals.length + 1) := rfl
    have hless : Int32.ofInt (scope.base + slotBytes * scope.slots) <
        Int32.ofInt (scope.next ty).position ↔ ¬ scope.locals.length < scope.slots := by
      simp only [slotBytes] at *
      rw [ofInt_lt_ofInt (by omega) (by omega)]
      omega
    rw [declare_word_cons hscopes]
    by_cases hfull : (scope.locals.length : Int) < scope.slots
    · rw [if_neg fun hlt => hless.1 hlt hfull]
      simp only [declare, hscopes, hfull, if_true, add]
      rfl
    · rw [if_pos (hless.2 hfull)]
      simp only [declare, hscopes, hfull, if_false]

end Frame

end ArmCompiler
