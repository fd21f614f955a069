/-!
# Types of the Source Language

Scalars, pairs and arrays, with two sentinels: the wildcard `any`, which fits wherever a valid
type is wanted, and `invalid`, which marks an earlier error and fits nowhere.

A type is a kind together with a number of array dimensions. The sides of a pair are *slots*:
a base with dimensions of its own, or no base at all when nothing is known about the side.
A pair nested in a pair keeps no sides of its own; it is *erased* to the base `pair`.

## Contents
- §1: bases, slots, kinds, sides and types
- §2: predicates and agreement
- §3: arrays and pair sides
- §4: storage size and display text
-/

namespace ArmCompiler

/-! ## §1 The types -/

/-- The bases a scalar or a pair slot can have. `pair` is the erased pair: its sides are unknown. -/
inductive Base where
  | int
  | bool
  | char
  | string
  | pair
  deriving DecidableEq, Repr

/-- One side of a pair type: a base, or `none` when the side can hold anything, with the
number of array dimensions of that side. -/
structure Slot where
  base : Option Base
  dims : Nat
  deriving DecidableEq, Repr

/-- What a type is once its array dimensions are taken off. -/
inductive Kind where
  | base (b : Base)
  | pair (fst snd : Slot)
  | any
  | invalid
  deriving DecidableEq, Repr

/-- The two sides of a pair. -/
inductive Side where
  | fst
  | snd
  deriving DecidableEq, Repr

/-- The value that belongs to a side. -/
def Side.pick {α : Type} (side : Side) (fst snd : α) : α :=
  match side with
  | .fst => fst
  | .snd => snd

/-- A type: its kind and how many array dimensions are wrapped around it. -/
structure Ty where
  kind : Kind
  dims : Nat := 0
  deriving DecidableEq, Repr

namespace Ty

/-- The largest number of array dimensions that wrapping a type produces. -/
def maxDims : Nat := 255

/-- The type of integers. -/
def int : Ty := ⟨.base .int, 0⟩

/-- The type of booleans. -/
def bool : Ty := ⟨.base .bool, 0⟩

/-- The type of characters. -/
def char : Ty := ⟨.base .char, 0⟩

/-- The type of string literals. -/
def string : Ty := ⟨.base .string, 0⟩

/-- A pair about whose sides nothing is known. It is the type of the null pair. -/
def erasedPair : Ty := ⟨.base .pair, 0⟩

/-- The wildcard. -/
def any : Ty := ⟨.any, 0⟩

/-- The mark of an earlier error. -/
def invalid : Ty := ⟨.invalid, 0⟩

end Ty

/-! ## §2 Predicates and agreement -/

namespace Slot

/-- Two slots agree when they are equal or one of them has no base. -/
def agrees (a b : Slot) : Bool :=
  match a.base, b.base with
  | some x, some y => x == y && a.dims == b.dims
  | _, _ => true

/-- The type a slot stands for. A slot without a base stands for the plain wildcard. -/
def toTy (s : Slot) : Ty :=
  match s.base with
  | some b => ⟨.base b, s.dims⟩
  | none => .any

end Slot

/-- Two kinds of equal dimensions agree when they can describe one value: equal bases, pairs
whose sides agree, or a pair and the erased pair. -/
def Kind.agrees : Kind → Kind → Bool
  | .base x, .base y => x == y
  | .pair a b, .pair c d => a.agrees c && b.agrees d
  | .base .pair, .pair _ _ => true
  | .pair _ _, .base .pair => true
  | _, _ => false

namespace Ty

/-- Every type but the mark of an error is valid. -/
def isValid (t : Ty) : Bool :=
  match t.kind with
  | .invalid => false
  | _ => true

/-- Whether the type is a wildcard, with or without dimensions. -/
def isAny (t : Ty) : Bool :=
  match t.kind with
  | .any => true
  | _ => false

/-- Whether the type has an array dimension. -/
def isArray (t : Ty) : Bool := 0 < t.dims

/-- Whether the type is a pair, erased or not, and no array. -/
def isPair (t : Ty) : Bool :=
  match t.kind with
  | .pair _ _ => t.dims == 0
  | .base .pair => t.dims == 0
  | _ => false

/-- Two types agree when both are valid and either one is a wildcard or they have the same
dimensions and kinds that agree. -/
def agrees (a b : Ty) : Bool :=
  a.isValid && b.isValid && (a.isAny || b.isAny || (a.dims == b.dims && a.kind.agrees b.kind))

/-! ## §3 Arrays and pair sides -/

/-- The array type with elements of type `t`. An invalid type stays as it is, and a type
with `maxDims` dimensions gains none. -/
def toArray (t : Ty) : Ty :=
  match t.kind with
  | .invalid => t
  | _ => if t.dims < maxDims then ⟨t.kind, t.dims + 1⟩ else t

/-- The element type of an array type. A wildcard is its own element type; a type without
dimensions has none, which makes the result invalid. -/
def element (t : Ty) : Ty :=
  match t.kind, t.dims with
  | .any, _ => t
  | kind, dims + 1 => ⟨kind, dims⟩
  | _, 0 => .invalid

/-- The slot that holds a side of type `t`, unless `t` is invalid. A pair loses its sides. -/
def toSlot? (t : Ty) : Option Slot :=
  match t.kind with
  | .base b => some ⟨some b, t.dims⟩
  | .pair _ _ => some ⟨some .pair, t.dims⟩
  | .any => some ⟨none, t.dims⟩
  | .invalid => none

/-- The type of a pair with sides of types `a` and `b`; invalid as soon as one side is. -/
def pairOf (a b : Ty) : Ty :=
  match a.toSlot?, b.toSlot? with
  | some fst, some snd => ⟨.pair fst snd, 0⟩
  | _, _ => .invalid

/-- The type of one side of a pair. The sides of an erased pair and of a wildcard are
wildcards; arrays and scalars have no sides. -/
def side? (side : Side) (t : Ty) : Option Ty :=
  match t.dims, t.kind with
  | 0, .pair fst snd => some (side.pick fst snd).toTy
  | 0, .base .pair => some .any
  | 0, .any => some .any
  | _, _ => none

/-! ## §4 Storage size and display text -/

/-- Bytes an array element of the type takes: one for booleans and characters, four for all
else. -/
def size (t : Ty) : Nat :=
  match t.kind, t.dims with
  | .base .bool, 0 => 1
  | .base .char, 0 => 1
  | _, _ => 4

end Ty

/-- The keyword of a base. -/
def Base.text : Base → String
  | .int => "int"
  | .bool => "bool"
  | .char => "char"
  | .string => "string"
  | .pair => "pair"

/-- One pair of brackets per array dimension. -/
def dimsText (dims : Nat) : String := String.join (List.replicate dims "[]")

/-- A slot's base, or `any`, followed by its dimensions. -/
def Slot.text (s : Slot) : String :=
  (match s.base with
    | some b => b.text
    | none => "any") ++ dimsText s.dims

/-- How a type is written in messages. An invalid type shows no dimensions. -/
def Ty.text (t : Ty) : String :=
  match t.kind with
  | .base b => b.text ++ dimsText t.dims
  | .pair fst snd => "pair(" ++ fst.text ++ ", " ++ snd.text ++ ")" ++ dimsText t.dims
  | .any => "any" ++ dimsText t.dims
  | .invalid => "invalid"

end ArmCompiler
