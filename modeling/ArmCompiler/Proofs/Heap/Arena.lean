import ArmCompiler.Proofs.Evaluation

/-!
# Memory in Use

What code that is called may do to the memory. An arena divides the bytes in three. *Volatile* bytes
lie below the stack pointer, and any call may overwrite them. *Free* bytes belong to the allocator,
which tells by their contents which ones they are. All others are *live*: they hold the variables,
the arrays and the pairs of the program, and no call changes them. An allocation turns free bytes
into live ones. So what was read from live bytes can be read again after any number of calls,
allocations and stores to bytes that were allocated since.

## Contents
- §1: blocks of bytes
- §2: loads and stores
- §3: arenas
- §4: reading live bytes
- §5: calls and allocations
-/

namespace ArmCompiler

/-! ## §1 Blocks of bytes -/

/-- The bytes of a block, given its address and its size. -/
def Block (p : Word) (bytes : Nat) (a : Word) : Prop := (a - p).toNat < bytes

instance (p : Word) (bytes : Nat) (a : Word) : Decidable (Block p bytes a) :=
  inferInstanceAs (Decidable (_ < _))

namespace Block

variable {p a : Word} {bytes size offset offset' size' : Nat}

/-- The bytes of a block are numbered. -/
theorem exists_offset (h : Block p bytes a) : ∃ j < bytes, a = p + BitVec.ofNat 32 j := by
  -- The number of a byte is its distance, also where the block wraps around.
  refine ⟨(a - p).toNat, h, ?_⟩
  rw [BitVec.ofNat_toNat, BitVec.setWidth_eq]
  ring

theorem add_offset (hlt : offset < bytes) (hfits : bytes ≤ 2 ^ 32) :
    Block p bytes (p + BitVec.ofNat 32 offset) := by
  have hsub : p + BitVec.ofNat 32 offset - p = BitVec.ofNat 32 offset := by ring
  rw [Block, hsub, BitVec.toNat_ofNat, Nat.mod_eq_of_lt (by omega)]
  exact hlt

/-- A block within another one. -/
theorem of_sub (h : Block (p + BitVec.ofNat 32 offset) size a) (hle : offset + size ≤ bytes)
    (hfits : bytes ≤ 2 ^ 32) : Block p bytes a := by
  obtain ⟨j, hj, rfl⟩ := h.exists_offset
  rw [BitVec.add_assoc, ← BitVec.ofNat_add]
  exact add_offset (by omega) hfits

/-- Blocks at a distance have no byte in common. -/
theorem apart (hle : offset + size ≤ offset') (hfits : offset' + size' ≤ 2 ^ 32)
    (h : Block (p + BitVec.ofNat 32 offset) size a) :
    ¬ Block (p + BitVec.ofNat 32 offset') size' a := by
  intro h'
  obtain ⟨j, hj, rfl⟩ := h.exists_offset
  obtain ⟨j', hj', hsame⟩ := h'.exists_offset
  rw [BitVec.add_assoc, BitVec.add_assoc, ← BitVec.ofNat_add, ← BitVec.ofNat_add] at hsame
  -- Equal addresses at offsets below the size of the address space have equal offsets.
  have hoffsets := congrArg BitVec.toNat (add_left_cancel hsame)
  simp only [BitVec.toNat_ofNat] at hoffsets
  omega

end Block

/-! ## §2 Loads and stores -/

/-- How many bytes a load or store moves. -/
def Width.bytes : Width → Nat
  | .word => 4
  | .byte => 1

theorem Ty.size_eq (ty : Ty) : ty.size = 1 ∨ ty.size = 4 := by
  unfold Ty.size
  split <;> simp

/-- A value is stored in as many bytes as its type says. -/
theorem Ty.bytes_width (ty : Ty) : ty.width.bytes = ty.size := by
  rcases ty.size_eq with h | h <;> simp [Ty.width, h, Width.bytes]

/-- What is left of a word that is stored and loaded again. -/
def Width.cut : Width → Word → Word
  | .word, w => w
  | .byte, w => (w.setWidth 8).setWidth 32

namespace Machine

variable {m m' : Machine} {a b x w : Word} {width : Width}

theorem load_store_self (m : Machine) (a w : Word) (width : Width) :
    (m.store a w width).load width a = width.cut w := by
  cases width with
  | word => exact load_store_word m a w
  | byte => exact load_store_byte m a w

@[simp] theorem symbols_store (m : Machine) (a w : Word) (width : Width) :
    (m.store a w width).symbols = m.symbols := by
  cases width <;> rfl

/-- A store changes the bytes of its block only. -/
theorem memory_store_of_not_block (h : ¬ Block a width.bytes x) :
    (m.store a w width).memory x = m.memory x := by
  cases width with
  | word =>
    refine memory_store_of_ne fun j hj hx => h ?_
    rw [hx]
    exact Block.add_offset hj (by decide)
  | byte =>
    have hne : x ≠ a := by
      rintro rfl
      exact h (by simp [Block, Width.bytes])
    simp [store, storeByte, hne]

/-- A load depends on the bytes of its block only. -/
theorem load_congr_block (h : ∀ x, Block a width.bytes x → m'.memory x = m.memory x) :
    m'.load width a = m.load width a := by
  cases width with
  | word => exact load_congr .word fun j hj => h _ (Block.add_offset hj (by decide))
  | byte =>
    have hbyte : m'.memory a = m.memory a := h a (by simp [Block, Width.bytes])
    simp [load, hbyte]

/-- A store to another block does not change what is loaded. -/
theorem load_store_of_apart {width' : Width}
    (h : ∀ x, Block b width'.bytes x → ¬ Block a width.bytes x) :
    (m.store a w width).load width' b = m.load width' b :=
  load_congr_block fun x hx => memory_store_of_not_block (h x hx)

end Machine

/-! ## §3 Arenas -/

/-- Which bytes called code may write while the stack pointer stands at a place. -/
structure Arena where
  sp : Word
  /-- Bytes that any call may overwrite. -/
  volatile : Word → Bool
  /-- Bytes that belong to the allocator, given the memory. -/
  free : (Word → Byte) → Word → Bool
  /-- A call can save a register below the stack pointer. -/
  saves : ∀ a, Block (sp - 4) 4 a → volatile a = true
  /-- The allocator owns no byte that a call may overwrite. -/
  apart : ∀ memory a, free memory a = true → volatile a = false
  /-- The allocator tells by its own bytes which ones they are. -/
  owned : ∀ {memory memory'}, (∀ a, free memory a = true → memory' a = memory a) →
    free memory' = free memory

namespace Arena

variable {arena : Arena} {m m' m'' : Machine} {W W' : Register → Prop} {a w p : Word}

/-- Bytes that the program uses. -/
def live (arena : Arena) (m : Machine) (a : Word) : Bool :=
  !arena.volatile a && !arena.free m.memory a

theorem live_iff : arena.live m a = true ↔
    arena.volatile a = false ∧ arena.free m.memory a = false := by
  simp [live]

/-- Everything live stays as it is, and stays live. -/
structure Extends (arena : Arena) (m m' : Machine) : Prop where
  symbols : m'.symbols = m.symbols
  sp : m'.regs .sp = m.regs .sp
  live : ∀ a, arena.live m a = true → arena.live m' a = true
  memory : ∀ a, arena.live m a = true → m'.memory a = m.memory a

namespace Extends

theorem trans (h : arena.Extends m m') (h' : arena.Extends m' m'') : arena.Extends m m'' where
  symbols := h'.symbols.trans h.symbols
  sp := h'.sp.trans h.sp
  live a ha := h'.live a (h.live a ha)
  memory a ha := (h'.memory a (h.live a ha)).trans (h.memory a ha)

/-- Live bytes are loaded again. -/
theorem load (h : arena.Extends m m') {width : Width}
    (hlive : ∀ x, Block a width.bytes x → arena.live m x = true) :
    m'.load width a = m.load width a :=
  Machine.load_congr_block fun x hx => h.memory x (hlive x hx)

end Extends

/-- Storing to live bytes leaves all live bytes live. -/
theorem live_store {width : Width} (h : ∀ x, Block a width.bytes x → arena.live m x = true) :
    arena.live (m.store a w width) = arena.live m := by
  -- The allocator's bytes are not live, so it still tells the same bytes apart.
  have hfree : arena.free (m.store a w width).memory = arena.free m.memory := by
    refine arena.owned fun x hx => Machine.memory_store_of_not_block fun hblock => ?_
    have hlive := (live_iff.1 (h x hblock)).2
    simp [hx] at hlive
  funext x
  simp only [live, hfree]

/-- A store to bytes that became live since. -/
theorem Extends.store {width : Width} (h : arena.Extends m m')
    (hlive : ∀ x, Block a width.bytes x → arena.live m' x = true)
    (hnew : ∀ x, Block a width.bytes x → arena.live m x = false) :
    arena.Extends m (m'.store a w width) where
  symbols := by rw [Machine.symbols_store, h.symbols]
  sp := by rw [Machine.regs_store, h.sp]
  live x hx := by
    rw [live_store hlive]
    exact h.live x hx
  memory x hx := by
    rw [Machine.memory_store_of_not_block fun hblock => by simp [hnew x hblock] at hx]
    exact h.memory x hx

/-! ## §4 Reading live bytes -/

end Arena

/-- Why an expression has no value. -/
inductive NoValue where
  /-- A run-time error ends the program. -/
  | error
  /-- The value depends on bytes that are not live, or the expression has no meaning. -/
  | unknown
  deriving DecidableEq, Repr

namespace Arena

variable {arena : Arena} {m m' m'' : Machine} {W W' : Register → Prop} {a w p : Word}
  {width : Width}

/-- Whether all bytes of a load or store are live. -/
def covers (arena : Arena) (m : Machine) (width : Width) (a : Word) : Bool :=
  (List.range width.bytes).all fun j => arena.live m (a + BitVec.ofNat 32 j)

theorem covers_iff : arena.covers m width a = true ↔
    ∀ x, Block a width.bytes x → arena.live m x = true := by
  simp only [covers, List.all_eq_true, List.mem_range]
  constructor
  · intro h x hx
    obtain ⟨j, hj, rfl⟩ := hx.exists_offset
    exact h j hj
  · intro h j hj
    exact h _ (Block.add_offset hj (by cases width <;> decide))

/-- Reads memory, if it is live. -/
def read (arena : Arena) (m : Machine) (width : Width) (a : Word) : Except NoValue Word :=
  if arena.covers m width a then .ok (m.load width a) else .error .unknown

theorem read_eq_ok : arena.read m width a = .ok w ↔
    (∀ x, Block a width.bytes x → arena.live m x = true) ∧ m.load width a = w := by
  unfold read
  split
  · next h => simpa using fun _ => covers_iff.1 h
  · next h => simpa using fun hlive => absurd (covers_iff.2 hlive) h

theorem read_ne_error : arena.read m width a ≠ .error .error := by
  unfold read
  split <;> simp

/-- What can be read can be read again. -/
theorem Extends.read (h : arena.Extends m m') (hread : arena.read m width a = .ok w) :
    arena.read m' width a = .ok w := by
  obtain ⟨hlive, hload⟩ := read_eq_ok.1 hread
  exact read_eq_ok.2 ⟨fun x hx => h.live x (hlive x hx), (h.load hlive).trans hload⟩

/-! ## §5 Calls and allocations -/

end Arena

/-- Nothing changes but some registers, the flags and volatile bytes. -/
structure Machine.Spares (arena : Arena) (W : Register → Prop) (m m' : Machine) : Prop where
  symbols : m'.symbols = m.symbols
  regs : ∀ r, ¬ W r → m'.regs r = m.regs r
  memory : ∀ a, arena.volatile a = false → m'.memory a = m.memory a

namespace Machine.Spares

variable {arena : Arena} {m m' m'' : Machine} {W W' : Register → Prop}

theorem refl (m : Machine) : m.Spares arena W m := ⟨rfl, fun _ _ => rfl, fun _ _ => rfl⟩

theorem mono (h : m.Spares arena W m') (hsub : ∀ r, W r → W' r) : m.Spares arena W' m' :=
  ⟨h.symbols, fun r hr => h.regs r fun hW => hr (hsub r hW), h.memory⟩

theorem trans (h : m.Spares arena W m') (h' : m'.Spares arena W m'') : m.Spares arena W m'' :=
  ⟨h'.symbols.trans h.symbols, fun r hr => (h'.regs r hr).trans (h.regs r hr),
    fun a ha => (h'.memory a ha).trans (h.memory a ha)⟩

theorem set {r : Register} (hr : W r) (w : Word) : m.Spares arena W (m.set r w) :=
  ⟨rfl, fun s hs => m.regs_set_of_ne r s w fun heq => hs (heq ▸ hr), fun _ _ => rfl⟩

/-- The allocator's bytes are not touched, so the same bytes are live. -/
theorem live (h : m.Spares arena W m') : arena.live m' = arena.live m := by
  have hfree : arena.free m'.memory = arena.free m.memory :=
    arena.owned fun a ha => h.memory a (arena.apart _ a ha)
  funext a
  simp only [Arena.live, hfree]

theorem extended (h : m.Spares arena W m') (hsp : ¬ W .sp) : arena.Extends m m' where
  symbols := h.symbols
  sp := h.regs _ hsp
  live _ ha := h.live ▸ ha
  memory a ha := h.memory a (Arena.live_iff.1 ha).1

end Machine.Spares

/-- The allocator has given a block of bytes and left its address in `r0`. The block was free
before, is not null, and belongs to the program from now on. The general registers, the stack
pointer and the live bytes are as before. -/
structure Arena.Grants (arena : Arena) (bytes : Nat) (m m' : Machine) : Prop where
  symbols : m'.symbols = m.symbols
  regs : ∀ r, ¬ r.Scratch → m'.regs r = m.regs r
  memory : ∀ a, arena.live m a = true → m'.memory a = m.memory a
  free : ∀ a, arena.free m'.memory a = true → arena.free m.memory a = true
  fits : bytes ≤ 2 ^ 32
  nonnull : m'.regs .r0 ≠ 0
  fresh : ∀ a, Block (m'.regs .r0) bytes a → arena.free m.memory a = true
  given : ∀ a, Block (m'.regs .r0) bytes a → arena.free m'.memory a = false

namespace Arena.Grants

variable {arena : Arena} {bytes : Nat} {m m' : Machine} {a : Word}

theorem extended (h : arena.Grants bytes m m') : arena.Extends m m' where
  symbols := h.symbols
  sp := h.regs _ (by decide)
  live a ha := by
    obtain ⟨hvolatile, hfree⟩ := Arena.live_iff.1 ha
    refine Arena.live_iff.2 ⟨hvolatile, ?_⟩
    rw [Bool.eq_false_iff] at hfree ⊢
    exact fun hfree' => hfree (h.free a hfree')
  memory := h.memory

/-- A request can be traced back to before the size was passed. -/
theorem of_set {r : Register} {w : Word} (h : arena.Grants bytes (m.set r w) m')
    (hr : r.Scratch) : arena.Grants bytes m m' where
  symbols := h.symbols
  regs s hs := by
    rw [h.regs s hs, m.regs_set_of_ne r s w]
    rintro rfl
    exact hs hr
  memory := h.memory
  free := h.free
  fits := h.fits
  nonnull := h.nonnull
  fresh := h.fresh
  given := h.given

/-- The bytes of the block were not in use. -/
theorem not_live_before (h : arena.Grants bytes m m') (ha : Block (m'.regs .r0) bytes a) :
    arena.live m a = false := by
  simp [Arena.live, h.fresh a ha]

theorem live_after (h : arena.Grants bytes m m') (ha : Block (m'.regs .r0) bytes a) :
    arena.live m' a = true :=
  Arena.live_iff.2 ⟨arena.apart _ a (h.fresh a ha), h.given a ha⟩

end Arena.Grants

end ArmCompiler
