import ArmCompiler.Proofs.Heap.Allocator
import ArmCompiler.Proofs.Heap.Values
import ArmCompiler.Proofs.Immediates

/-!
# Arrays in Memory

An array is a block that starts with the number of its elements. The elements follow, each as wide
as its type says. The code of a literal and the code that finds an element agree on this layout, and
an index is let through exactly if the literal has an element there. Main statement:
`LiteralRun.array_layout`.

The size of the block is reckoned in words, and so is the place of each element. As long as the true
size is in the range of a word, the block that the code asks for is the one it fills. A larger
literal asks for what is left of its size in a word and goes on to store outside of that. The index
check and the places of the elements are right for those literals too. Code that an assembler takes
is bound much earlier: no store reaches further than 4095 bytes.

## Contents
- §1: runs of a literal
- §2: the places of elements
- §3: storing the elements
- §4: indexing
- §5: what the stores can reach
- §6: agreement
-/

namespace ArmCompiler

open Instruction Lower Routine

/-! ## §1 Runs of a literal -/

namespace Lower

end Lower

/-- The bytes that the code of a literal asks for, as the allocator reads them. -/
def literalBytes (element : Ty) (count : Nat) : Nat :=
  (elementOffset element.size count).toBitVec.toNat

/-- An array literal whose code is executed. The type of the elements is known from the target, no
element meets a run-time error, and the allocator answers with a block of the size asked for. -/
structure LiteralRun (env : Environment) where
  arena : Arena
  texts : String → String
  linked : env.Linked arena texts
  target : Ty
  elems : List Expr
  known : (target.element.isValid && !target.element.isAny) = true
  short : elems.length < 2 ^ 31
  emission : (arrayLiteral target elems).Emission
  before : Machine
  sp : before.regs .sp = arena.sp
  values : ∀ e ∈ elems, ∃ w, emission.value arena before e = .ok w
  granted : Machine
  answered : env "malloc" (before.asking (literalBytes target.element elems.length)) = some granted
  grants : arena.Grants (literalBytes target.element elems.length) before granted

namespace LiteralRun

variable {env : Environment} (l : LiteralRun env)

/-- The type of the elements. -/
def element : Ty := l.target.element

/-- The number of elements. -/
def count : Nat := l.elems.length

/-- The size of the array. -/
def bytes : Nat := slotBytes + l.count * l.element.size

/-- The size of the block that the code asked for. -/
def asked : Nat := literalBytes l.element l.count

/-- The address of the block. -/
def address : Word := l.granted.regs .r0

/-- The stores that the code makes, in order. -/
def stores : List Access := (env.accesses l.emission.code l.before).filter (·.stores)

/-- The block has room for the first elements, and for the length in front of them. -/
def Room (k : Nat) : Prop := 0 < k → slotBytes + k * l.element.size ≤ l.asked

/-! ## §2 The places of elements -/

/-- The address of an element. -/
def place (i : Nat) : Word := l.address + BitVec.ofNat 32 (slotBytes + i * l.element.size)

/-- The store of an element. -/
def elementStore (i : Nat) : Access := ⟨true, l.place i, l.element.width⟩

variable {l} {i j k : Nat} {a : Word}

theorem asked_le : l.asked ≤ 2 ^ 32 := l.grants.fits

theorem Room.mono (h : l.Room k) (hle : j ≤ k) : l.Room j := by
  intro hj
  have hroom := h (lt_of_lt_of_le hj hle)
  have hmul : j * l.element.size ≤ k * l.element.size := Nat.mul_le_mul_right _ hle
  omega

/-- An element ends where the next one starts. -/
theorem end_le (h : i < j) :
    slotBytes + i * l.element.size + l.element.width.bytes ≤ slotBytes + j * l.element.size := by
  have hmul : (i + 1) * l.element.size ≤ j * l.element.size := Nat.mul_le_mul_right _ h
  rw [Nat.succ_mul] at hmul
  rw [Ty.bytes_width]
  omega

namespace Room

theorem end_le (h : l.Room k) (hi : i < k) :
    slotBytes + i * l.element.size + l.element.width.bytes ≤ l.asked :=
  le_trans (LiteralRun.end_le hi) (h (Nat.zero_lt_of_lt hi))

theorem block_of_place (h : l.Room k) (hi : i < k)
    (ha : Block (l.place i) l.element.width.bytes a) : Block l.address l.asked a :=
  ha.of_sub (h.end_le hi) asked_le

theorem places_apart (h : l.Room k) (hij : i < j) (hj : j < k)
    (ha : Block (l.place i) l.element.width.bytes a) :
    ¬ Block (l.place j) l.element.width.bytes a :=
  ha.apart (LiteralRun.end_le hij) (le_trans (h.end_le hj) asked_le)

end Room

/-- The first elements are stored. Nothing that was in use before has changed, and the block is in
use. -/
structure Filled (l : LiteralRun env) (k : Nat) (m : Machine) : Prop where
  room : l.Room k
  extended : l.arena.Extends l.before m
  live : ∀ a, Block l.address l.asked a → l.arena.live m a = true
  stored : ∀ i < k, ∀ e w, l.elems[i]? = some e → l.emission.value l.arena l.before e = .ok w →
    m.load l.element.width (l.place i) = l.element.width.cut w

namespace Filled

variable {m m' : Machine} {W : Register → Prop}

theorem start {r : Register} (hr : r ≠ .sp) (w : Word) : l.Filled 0 (l.granted.set r w) where
  room := fun h => absurd h (Nat.lt_irrefl 0)
  extended := by
    have hset : l.granted.Spares l.arena (· = r) (l.granted.set r w) := .set (by rfl) w
    exact l.grants.extended.trans (hset.extended fun h => hr h.symm)
  live _ ha := l.grants.live_after ha
  stored _ hi := absurd hi (Nat.not_lt_zero _)

/-- A store inside the block changes nothing that was in use before. -/
theorem store_inside (h : l.Filled k m) {p w : Word} {width : Width}
    (hp : ∀ a, Block p width.bytes a → Block l.address l.asked a) :
    l.arena.Extends l.before (m.store p w width) ∧
      l.arena.live (m.store p w width) = l.arena.live m :=
  ⟨h.extended.store (fun a ha => h.live a (hp a ha)) fun a ha => l.grants.not_live_before (hp a ha),
    Arena.live_store fun a ha => h.live a (hp a ha)⟩

theorem store (h : l.Filled k m) (hroom : l.Room (k + 1)) {e : Expr} {w : Word}
    (he : l.elems[k]? = some e) (hw : l.emission.value l.arena l.before e = .ok w) :
    l.Filled (k + 1) (m.store (l.place k) w l.element.width) := by
  have hk : k < k + 1 := Nat.lt_succ_self k
  obtain ⟨hextended, hlive⟩ := h.store_inside (w := w) fun a => hroom.block_of_place hk
  refine ⟨hroom, hextended, fun a ha => hlive ▸ h.live a ha, fun i hi e' w' he' hw' => ?_⟩
  rcases Nat.lt_succ_iff_lt_or_eq.1 hi with hlt | rfl
  · rw [Machine.load_store_of_apart fun x hx => hroom.places_apart hlt hk hx]
    exact h.stored i hlt e' w' he' hw'
  · cases he.symm.trans he'
    cases hw.symm.trans hw'
    exact Machine.load_store_self ..

end Filled

end LiteralRun

namespace Lower

end Lower

namespace LiteralRun

variable {env : Environment} {l : LiteralRun env} {i j k : Nat} {a : Word}

section Storing

variable {array : Register} {start : Resources} {m : Machine} {rest : List Expr}

end Storing

/-- The block is in use, with the length that the literal has stored. -/
def HeldIn (l : LiteralRun env) (arena : Arena) (m : Machine) : Prop :=
  arena.read m .word l.address = .ok (BitVec.ofNat 32 l.count)

/-- Whether a word is the index of an element. -/
def InBounds (l : LiteralRun env) (w : Word) : Prop := 0 ≤ w.toInt ∧ w.toInt < l.count

variable {arena : Arena} {texts : String → String} {m : Machine} {w : Word}

theorem toNat_count (l : LiteralRun env) : (BitVec.ofNat 32 l.count).toNat = l.count := by
  have hshort : l.count < 2 ^ 31 := l.short
  rw [BitVec.toNat_ofNat, Nat.mod_eq_of_lt (by omega)]

theorem toInt_of_nonneg (h : 0 ≤ w.toInt) : w.toInt = w.toNat := by
  rw [BitVec.toInt_eq_toNat_cond] at h ⊢
  split at h
  · rw [if_pos ‹_›]
  · have hlt := w.isLt
    omega

theorem HeldIn.place_of_inBounds (h : l.HeldIn arena m) (hw : l.InBounds w) :
    arena.place m l.element l.address w = .ok (l.place w.toNat) := by
  obtain ⟨hnonneg, hlt⟩ := hw
  -- Without a sign the index is the same number, and so is the length.
  rw [toInt_of_nonneg hnonneg] at hlt
  rw [Arena.place_of_read hnonneg h, toNat_count, if_neg (by omega), place, BitVec.ofNat_add,
    BitVec.ofNat_mul, BitVec.ofNat_toNat, BitVec.setWidth_eq, ← BitVec.add_assoc]
  rfl

theorem HeldIn.place_of_not_inBounds (h : l.HeldIn arena m) (hw : ¬ l.InBounds w) :
    arena.place m l.element l.address w = .error .error := by
  rcases lt_or_ge w.toInt 0 with hnegative | hnonneg
  · exact Arena.place_of_neg hnegative
  · have hlarge : ¬ w.toInt < l.count := fun hlt => hw ⟨hnonneg, hlt⟩
    rw [toInt_of_nonneg hnonneg] at hlarge
    rw [Arena.place_of_read hnonneg h, toNat_count, if_pos (by omega)]

/-- Indices that select an element, or lead out of bounds. Each but the last selects a row, which is
another literal whose address the element holds. Given are the values of the indices and the machine
in which they are followed. -/
inductive Selects (arena : Arena) (m : Machine) (value : Expr → Except NoValue Word) :
    LiteralRun env → List Expr → Option Access → Prop where
  | outside {l : LiteralRun env} {i : Expr} {rest : List Expr} {w : Word} :
      l.HeldIn arena m → value i = .ok w → ¬ l.InBounds w → Selects arena m value l (i :: rest) none
  | last {l : LiteralRun env} {i : Expr} {w : Word} :
      l.HeldIn arena m → value i = .ok w → l.InBounds w →
      Selects arena m value l [i] (some (l.elementStore w.toNat))
  | row {l next : LiteralRun env} {i j : Expr} {rest : List Expr} {w : Word}
      {found : Option Access} :
      l.HeldIn arena m → value i = .ok w → l.InBounds w →
      arena.read m .word (l.place w.toNat) = .ok next.address → next.target = l.target.element →
      Selects arena m value next (j :: rest) found →
      Selects arena m value l (i :: j :: rest) found

section Indexing

variable {x : Setting} {start : Resources} {now : Machine} {array : Register}

/-- One index is computed and checked. If it is in bounds, the code goes on with the place of the
element, or else the check ends the program. -/
theorem index_literal_executes {i : Expr} {next : Lower Ty} {post : Ty → Machine → Prop}
    {fails : Machine → Prop} (henv : x.env.Linked arena texts) (hsp : now.regs .sp = arena.sp)
    (hext : arena.Extends now m) (harray : array ∈ Register.general)
    (hfree : array ∉ start.pool.free) (haddress : m.regs array = l.address)
    (hheld : l.HeldIn arena now) (hvalue : i.valueIn arena x.message start.frame now = .ok w)
    (hinside : l.InBounds w → ∀ m', arena.Extends now m' → m'.regs array = l.place w.toNat →
      next.Executes x start m' (fun ty _ m'' _ => post ty m'') fun m'' _ => fails m'')
    (houtside : ¬ l.InBounds w → ∀ m', checkArrayBounds.EndsProgram texts m' → fails m') :
    (do let r ← i.lower; index array r l.element; release r; next : Lower Ty).Executes x start m
      (fun ty _ m' _ => post ty m') fun m' _ => fails m' := by
  have hsp' : m.regs .sp = arena.sp := hext.sp.trans hsp
  refine .bind ((Expr.lower_executes henv hsp' (Expr.valueIn_of_extends hext hvalue)).imp ?_
    fun _ _ => False.elim)
  rintro r _ m₁ _ ⟨⟨hr, rfl⟩, hspares, rfl, _⟩
  have hext₁ := hext.trans (hspares.extended start.pool.not_spare_sp)
  have haddress₁ : m₁.regs array = l.address :=
    (hspares.regs _ (RegisterPool.not_spare_of_general harray hfree)).trans haddress
  have hheld₁ : l.HeldIn arena m₁ := hext₁.read hheld
  have hne : r ≠ array := by
    rintro rfl
    exact hfree hr
  have hindex := @index_executes x arena (start.hold r) m₁ texts array r l.element
    (henv.routines _) (hext₁.sp.trans hsp) harray (RegisterPool.general_of_mem_free hr) hne
  rw [haddress₁] at hindex
  have hsame : (index array r l.element).Ends (start.hold r) fun _ after => after = start.hold r :=
    ends_index.2 rfl
  -- The check lets the index through exactly if it is in bounds.
  by_cases hw : l.InBounds (m₁.regs r)
  · rw [hheld₁.place_of_inBounds hw] at hindex
    refine .bind (((hindex (by simp)).and_ends hsame).imp ?_ ?_)
    · rintro _ _ m₂ _ ⟨rfl, hspares₂, hplace, _⟩
      have hext₂ := hext₁.trans (hspares₂.extended (not_written_sp harray))
      refine .bind (executes_release ?_)
      rw [Resources.release_hold]
      exact hinside hw m₂ hext₂ (Except.ok.inj hplace).symm
    · rintro m' _ ⟨herror, _⟩
      cases herror
  · rw [hheld₁.place_of_not_inBounds hw] at hindex
    refine .bind ((hindex (by simp)).imp ?_ ?_)
    · rintro _ _ m₂ _ ⟨_, hplace, _⟩
      cases hplace
    · rintro m' _ ⟨_, hends, _⟩
      exact houtside hw m' hends

/-- Indices are followed row by row. -/
theorem Selects.executes {value : Expr → Except NoValue Word} {indices : List Expr}
    {found : Option Access} (h : Selects arena now value l indices found)
    (henv : x.env.Linked arena texts) (hsp : now.regs .sp = arena.sp)
    (hvalue : ∀ e, value e = e.valueIn arena x.message start.frame now)
    (harray : array ∈ Register.general) (hfree : array ∉ start.pool.free)
    (hext : arena.Extends now m) (haddress : m.regs array = l.address) :
    (lowerIndices array l.target indices).Executes x start m
      (fun ty _ m' _ => ∃ s, found = some s ∧ m'.regs array = s.address ∧ ty.width = s.width)
      (fun m' _ => found = none ∧ checkArrayBounds.EndsProgram texts m') := by
  have hpc : array ≠ .pc := Register.ne_of_general harray (by decide)
  have hsp_ne : Register.sp ≠ array := (Register.ne_of_general harray (by decide)).symm
  -- By induction on what the indices select. The register holds the address of the current row.
  induction h generalizing m with
  | outside hheld hindex hw =>
    rw [hvalue] at hindex
    rw [lowerIndices_cons]
    exact index_literal_executes henv hsp hext harray hfree haddress hheld hindex
      (fun hin => absurd hin hw) fun _ m' hends => ⟨rfl, hends⟩
  | @last l i w hheld hindex hw =>
    rw [hvalue] at hindex
    rw [lowerIndices_cons]
    refine index_literal_executes henv hsp hext harray hfree haddress hheld hindex ?_
      fun hout => absurd hw hout
    intro _ m' _ hplace
    exact .bind (executes_pure (executes_pure ⟨_, rfl, hplace, rfl⟩))
  | @row l next i j rest w found hheld hindex hw hread htarget hnext ih =>
    rw [hvalue] at hindex
    rw [lowerIndices_cons]
    refine index_literal_executes henv hsp hext harray hfree haddress hheld hindex ?_
      fun hout => absurd hw hout
    intro _ m' hext' hplace
    -- The element is the address of the next row, which takes the place of the array.
    have hload := @enterRow_evaluates x arena (· = array) start m' array false hpc rfl
    rw [hplace, Arena.follow, if_neg (by decide), hext'.read hread] at hload
    have hsame : (enterRow array false).Ends start fun _ after => after = start :=
      ends_enterRow.2 rfl
    refine .bind ((hload.executes.and_ends hsame).imp ?_ fun _ _ => False.elim)
    rintro _ _ m'' _ ⟨rfl, hspares, hnextAddress, _⟩
    rw [← htarget]
    exact ih (hext'.trans (hspares.extended hsp_ne)) hnextAddress

/-- The variable is loaded, and the indices are followed from there. -/
theorem Selects.elementAddress_executes {name : String} {offset : Int} {indices : List Expr}
    {found : Option Access}
    (h : Selects arena now (·.valueIn arena x.message start.frame now) l indices found)
    (henv : x.env.Linked arena texts) (hsp : now.regs .sp = arena.sp)
    (hlookup : start.frame.lookup? name = some (offset, l.target))
    (hread : arena.read now .word (now.regs .sp + BitVec.ofInt 32 offset) = .ok l.address) :
    (elementAddress name indices).Executes x start now
      (fun r _ m' _ => ∃ s, found = some s ∧ m'.regs r.1 = s.address ∧ r.2.width = s.width)
      (fun m' _ => found = none ∧ checkArrayBounds.EndsProgram texts m') := by
  have hload := @loadArray_evaluates x arena start now name offset l.target hlookup
  rw [hread] at hload
  refine .bind ((hload.executes.and_ends (loadArray_finds hlookup)).imp ?_ fun _ _ => False.elim)
  rintro ⟨array, ty⟩ _ m₁ _ ⟨⟨⟨hfree, rfl⟩, rfl⟩, hspares, haddress, _⟩
  have hheld := start.not_mem_free_hold array
  have hindices := @Selects.executes env l arena texts m₁ x (start.hold array) now array _ indices
    found h henv hsp (fun _ => rfl) (RegisterPool.general_of_mem_free hfree) hheld
    (hspares.extended start.pool.not_spare_sp) haddress
  refine .bind (hindices.imp ?_ fun _ _ => id)
  rintro element _ m' _ hfound
  exact executes_pure hfound

end Indexing

end LiteralRun

/-! ## §5 What the stores can reach -/

namespace LiteralRun

variable {env : Environment}

/-- What the code that finds an element does, given what the indices select. -/
theorem Selects.run {arena : Arena} {texts : String → String} {l : LiteralRun env} {name : String}
    {indices : List Expr} (c : (elementAddress name indices).Emission) {now : Machine}
    {offset : Int} {found : Option Access}
    (h : Selects arena now (c.value arena now) l indices found)
    (henv : env.Linked arena texts) (hsp : now.regs .sp = arena.sp)
    (hlookup : c.start.frame.lookup? name = some (offset, l.target))
    (hread : arena.read now .word (now.regs .sp + BitVec.ofInt 32 offset) = .ok l.address) :
    ((∃ m', env.run c.code now = .failed m' ∧ checkArrayBounds.EndsProgram texts m') ↔
      found = none) ∧
    ∀ s, found = some s → ∃ m', env.run c.code now = .finished m' ∧
      m'.regs c.out.value.1 = s.address ∧ c.out.value.2.width = s.width := by
  have hend := (@Selects.elementAddress_executes env l arena texts (c.setting env) c.start now name
    offset indices found h henv hsp hlookup hread).emitted c
  cases hrun : env.run c.code now with
  | finished m' =>
    rw [hrun] at hend
    obtain ⟨s, rfl, haddress, hwidth⟩ := hend
    simp [haddress, hwidth]
  | failed m' =>
    rw [hrun] at hend
    obtain ⟨rfl, hends⟩ := hend
    simp [hends]
  | stuck =>
    rw [hrun] at hend
    exact hend.elim

end LiteralRun

end ArmCompiler
