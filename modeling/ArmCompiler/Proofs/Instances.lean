import ArmCompiler.Ty
import Mathlib.Order.MinMax
import Mathlib.Tactic.Common

/-!
# Instances of Types

A wildcard, an erased pair and a slot without a base leave something open. Filling in what is open
gives the *instances* of a type, which are concrete: scalars and pairs of known sides, with
dimensions. Two types agree exactly if they have an instance in common. That agreement is symmetric,
that it holds of a type and itself only if the type is valid, and that it is equality on concrete
types is read off from there. Main statements: `Ty.agreement_is_common_instance` and
`Ty.pairs_keep_agreement`.

Making a pair keeps instances, although a slot forgets the sides of a pair and the dimensions of a
wildcard. So pairs of agreeing sides agree.

## Contents
- §1: concrete types and instances
- §2: what instances there are
- §3: agreement and common instances
- §4: making pairs and taking sides
-/

namespace ArmCompiler

/-! ## §1 Concrete types and instances -/

/-- A slot that says what it holds. -/
def Slot.IsConcrete (s : Slot) : Prop := s.base ≠ none

/-- A slot allows itself only, and any slot if it has no base. -/
def Slot.Allows (s allowed : Slot) : Prop := s.base = none ∨ allowed = s

instance (s : Slot) : Decidable s.IsConcrete := inferInstanceAs (Decidable (_ ≠ _))

instance (s allowed : Slot) : Decidable (s.Allows allowed) := inferInstanceAs (Decidable (_ ∨ _))

namespace Ty

/-- A type that leaves nothing open. -/
def IsConcrete (t : Ty) : Prop :=
  match t.kind with
  | .base b => b ≠ .pair
  | .pair fst snd => fst.IsConcrete ∧ snd.IsConcrete
  | .any | .invalid => False

instance : DecidablePred IsConcrete
  | ⟨.base b, _⟩ => inferInstanceAs (Decidable (b ≠ .pair))
  | ⟨.pair fst snd, _⟩ => inferInstanceAs (Decidable (fst.IsConcrete ∧ snd.IsConcrete))
  | ⟨.any, _⟩ | ⟨.invalid, _⟩ => isFalse id

/-- The concrete types that a type stands for. An invalid type stands for none. -/
inductive HasInstance : Ty → Ty → Prop where
  /-- A wildcard stands for every concrete type, whatever its dimensions. -/
  | wildcard {dims : Nat} {c : Ty} : c.IsConcrete → HasInstance ⟨.any, dims⟩ c
  /-- An erased pair stands for every concrete pair of its dimensions. -/
  | erased {dims : Nat} {fst snd : Slot} : fst.IsConcrete → snd.IsConcrete →
    HasInstance ⟨.base .pair, dims⟩ ⟨.pair fst snd, dims⟩
  /-- A pair stands for the concrete pairs of its dimensions with sides that its slots allow. -/
  | pair {dims : Nat} {fst snd fst' snd' : Slot} : fst'.IsConcrete → snd'.IsConcrete →
    fst.Allows fst' → snd.Allows snd' → HasInstance ⟨.pair fst snd, dims⟩ ⟨.pair fst' snd', dims⟩
  /-- A scalar stands for itself. -/
  | scalar {dims : Nat} {b : Base} : b ≠ .pair → HasInstance ⟨.base b, dims⟩ ⟨.base b, dims⟩

/-- The largest number of dimensions anywhere in a type. -/
def deepest (t : Ty) : Nat :=
  match t.kind with
  | .pair fst snd => max t.dims (max fst.dims snd.dims)
  | .base _ | .any | .invalid => t.dims

/-! ## §2 What instances there are -/

variable {a b c t : Ty}

theorem HasInstance.isConcrete (h : t.HasInstance c) : c.IsConcrete := by
  cases h with
  | wildcard hc => exact hc
  | erased hfst hsnd => exact ⟨hfst, hsnd⟩
  | pair hfst hsnd _ _ => exact ⟨hfst, hsnd⟩
  | scalar hb => exact hb

theorem HasInstance.isValid (h : t.HasInstance c) : t.isValid := by
  cases h <;> rfl

/-- A concrete type stands for itself and nothing else. -/
theorem IsConcrete.hasInstance_iff (h : t.IsConcrete) : t.HasInstance c ↔ c = t := by
  obtain ⟨kind, dims⟩ := t
  constructor
  · intro hc
    cases hc with
    | wildcard => exact h.elim
    | erased => exact absurd rfl h
    | scalar => rfl
    | pair _ _ hfst hsnd =>
      -- Both slots have a base, so neither allows another slot.
      rw [hfst.resolve_left h.1, hsnd.resolve_left h.2]
  · rintro rfl
    cases kind with
    | base b => exact .scalar h
    | pair fst snd => exact .pair h.1 h.2 (.inr rfl) (.inr rfl)
    | any => exact h.elim
    | invalid => exact h.elim

end Ty

namespace Slot

variable {a b c : Slot}

/-- Slots that agree allow a concrete slot in common: one of the two, or any if both are open. -/
theorem exists_allowed (h : a.agrees b) :
    ∃ c, c.IsConcrete ∧ a.Allows c ∧ b.Allows c ∧ c.dims ≤ max a.dims b.dims := by
  obtain ⟨x, m⟩ := a
  obtain ⟨y, n⟩ := b
  cases x with
  | none =>
    cases y with
    | none => exact ⟨⟨some .int, 0⟩, by decide, .inl rfl, .inl rfl, Nat.zero_le _⟩
    | some y => exact ⟨⟨some y, n⟩, by simp [IsConcrete], .inl rfl, .inr rfl, Nat.le_max_right m n⟩
  | some x =>
    cases y with
    | none => exact ⟨⟨some x, m⟩, by simp [IsConcrete], .inr rfl, .inl rfl, Nat.le_max_left m n⟩
    | some y =>
      obtain ⟨rfl, rfl⟩ : x = y ∧ m = n := by simpa [agrees] using h
      exact ⟨⟨some x, m⟩, by simp [IsConcrete], .inr rfl, .inr rfl, Nat.le_max_left m m⟩

theorem agrees_of_allows (ha : a.Allows c) (hb : b.Allows c) : a.agrees b := by
  rcases ha with ha | rfl
  · simp [agrees, ha]
  · rcases hb with hb | rfl
    · simp [agrees, hb]
    · cases h : c.base <;> simp [agrees, h]

end Slot

namespace Ty

variable {a b c d t x y : Ty}

/-- A valid type has an instance that is nowhere deeper than the type. -/
theorem exists_instance (h : t.isValid) : ∃ c, t.HasInstance c ∧ c.deepest ≤ t.deepest := by
  obtain ⟨kind, dims⟩ := t
  cases kind with
  | any => exact ⟨⟨.base .int, 0⟩, .wildcard (by decide), Nat.zero_le _⟩
  | invalid => cases h
  | pair fst snd =>
    -- What agrees with itself allows something.
    have hself (s : Slot) : s.agrees s := by cases hs : s.base <;> simp [Slot.agrees, hs]
    obtain ⟨fst', hfst, hallows, _, hdims⟩ := Slot.exists_allowed (hself fst)
    obtain ⟨snd', hsnd, hallows', _, hdims'⟩ := Slot.exists_allowed (hself snd)
    refine ⟨⟨.pair fst' snd', dims⟩, .pair hfst hsnd hallows hallows', ?_⟩
    simp only [deepest]
    omega
  | base b =>
    by_cases hb : b = .pair
    · subst hb
      refine ⟨⟨.pair ⟨some .int, 0⟩ ⟨some .int, 0⟩, dims⟩, .erased (by decide) (by decide), ?_⟩
      simp [deepest]
    · exact ⟨⟨.base b, dims⟩, .scalar hb, Nat.le_refl _⟩

/-- An erased pair stands for all that a pair of its dimensions stands for. -/
theorem HasInstance.erase {fst snd : Slot} {dims : Nat} (h : HasInstance ⟨.pair fst snd, dims⟩ c) :
    HasInstance ⟨.base .pair, dims⟩ c := by
  cases h with
  | pair hfst hsnd _ _ => exact .erased hfst hsnd

/-! ## §3 Agreement and common instances -/

theorem agrees_iff : a.agrees b ↔ a.isValid ∧ b.isValid ∧
    (a.isAny ∨ b.isAny ∨ a.dims = b.dims ∧ a.kind.agrees b.kind) := by
  simp [agrees, and_assoc, or_assoc]

theorem agrees_of_common (ha : a.HasInstance c) (hb : b.HasInstance c) : a.agrees b := by
  refine agrees_iff.2 ⟨ha.isValid, hb.isValid, ?_⟩
  cases ha with
  | wildcard => exact .inl rfl
  | erased =>
    cases hb with
    | wildcard => exact .inr (.inl rfl)
    | erased | pair => exact .inr (.inr ⟨rfl, rfl⟩)
  | scalar =>
    cases hb with
    | wildcard => exact .inr (.inl rfl)
    | scalar => exact .inr (.inr ⟨rfl, by simp [Kind.agrees]⟩)
  | pair _ _ hfst hsnd =>
    cases hb with
    | wildcard => exact .inr (.inl rfl)
    | erased => exact .inr (.inr ⟨rfl, rfl⟩)
    | pair _ _ hfst' hsnd' =>
      have hkinds := And.intro (Slot.agrees_of_allows hfst hfst') (Slot.agrees_of_allows hsnd hsnd')
      exact .inr (.inr ⟨rfl, by simpa [Kind.agrees] using hkinds⟩)

/-- Kinds that agree have a common instance in all dimensions. -/
theorem exists_common_of_kind {k l : Kind} (h : k.agrees l) (dims : Nat) :
    ∃ c, HasInstance ⟨k, dims⟩ c ∧ HasInstance ⟨l, dims⟩ c ∧
      c.deepest ≤ max (deepest ⟨k, dims⟩) (deepest ⟨l, dims⟩) := by
  unfold Kind.agrees at h
  split at h
  · next x y =>
    obtain rfl : x = y := by simpa using h
    obtain ⟨c, hc, hdeep⟩ := exists_instance (t := ⟨.base x, dims⟩) rfl
    exact ⟨c, hc, hc, le_max_of_le_left hdeep⟩
  · next fst snd fst' snd' =>
    obtain ⟨hfst, hsnd⟩ := Bool.and_eq_true_iff.1 h
    obtain ⟨left, hleft, hk, hl, hdims⟩ := Slot.exists_allowed hfst
    obtain ⟨right, hright, hk', hl', hdims'⟩ := Slot.exists_allowed hsnd
    refine ⟨⟨.pair left right, dims⟩, .pair hleft hright hk hk', .pair hleft hright hl hl', ?_⟩
    simp only [deepest]
    omega
  · next fst snd =>
    -- Here and below one pair is erased, and any instance of the other will do.
    obtain ⟨c, hc, hdeep⟩ := exists_instance (t := ⟨.pair fst snd, dims⟩) rfl
    exact ⟨c, hc.erase, hc, le_max_of_le_right hdeep⟩
  · next fst snd =>
    obtain ⟨c, hc, hdeep⟩ := exists_instance (t := ⟨.pair fst snd, dims⟩) rfl
    exact ⟨c, hc, hc.erase, le_max_of_le_left hdeep⟩
  · cases h

theorem eq_any_of_isAny (h : t.isAny) : t = ⟨.any, t.dims⟩ := by
  obtain ⟨kind, dims⟩ := t
  cases kind <;> first | rfl | cases h

/-- Types that agree have a common instance, and one that is nowhere deeper than both of them. -/
theorem exists_common (h : a.agrees b) :
    ∃ c, a.HasInstance c ∧ b.HasInstance c ∧ c.deepest ≤ max a.deepest b.deepest := by
  obtain ⟨ha, hb, hany | hany | ⟨hdims, hkind⟩⟩ := agrees_iff.1 h
  · -- A wildcard stands for any instance that the other type has.
    obtain ⟨c, hc, hdeep⟩ := exists_instance hb
    rw [eq_any_of_isAny hany]
    exact ⟨c, .wildcard hc.isConcrete, hc, le_max_of_le_right hdeep⟩
  · obtain ⟨c, hc, hdeep⟩ := exists_instance ha
    rw [eq_any_of_isAny hany]
    exact ⟨c, hc, .wildcard hc.isConcrete, le_max_of_le_left hdeep⟩
  · obtain ⟨k, m⟩ := a
    obtain ⟨l, n⟩ := b
    cases hdims
    exact exists_common_of_kind hkind m

theorem agrees_iff_common : a.agrees b ↔ ∃ c, a.HasInstance c ∧ b.HasInstance c := by
  constructor
  · intro h
    obtain ⟨c, ha, hb, _⟩ := exists_common h
    exact ⟨c, ha, hb⟩
  · rintro ⟨c, ha, hb⟩
    exact agrees_of_common ha hb

/-- Two types agree exactly if they have an instance in common, which then need not be deeper than
the two. So agreement is symmetric, holds of a type and itself exactly if the type is valid, and is
equality on concrete types. -/
theorem agreement_is_common_instance (a b : Ty) :
    (a.agrees b ↔ ∃ c, a.HasInstance c ∧ b.HasInstance c) ∧
    (a.agrees b → ∃ c, a.HasInstance c ∧ b.HasInstance c ∧
      c.deepest ≤ max a.deepest b.deepest) ∧
    (a.agrees b ↔ b.agrees a) ∧
    (a.agrees a ↔ a.isValid) ∧
    (a.IsConcrete → b.IsConcrete → (a.agrees b ↔ a = b)) := by
  refine ⟨agrees_iff_common, exists_common, ?_, ?_, ?_⟩
  · simp only [agrees_iff_common, and_comm]
  · constructor
    · intro h
      exact (agrees_iff.1 h).1
    · intro h
      obtain ⟨c, hc, _⟩ := exists_instance h
      exact agrees_of_common hc hc
  · intro ha hb
    simp only [agrees_iff_common, ha.hasInstance_iff, hb.hasInstance_iff]
    constructor
    · rintro ⟨c, rfl, rfl⟩
      rfl
    · rintro rfl
      exact ⟨a, rfl, rfl⟩

/-- Two pairs with a wildcard each, and two concrete types. -/
theorem agreement_is_common_instance_pairs :
    (∃ c, HasInstance ⟨.pair ⟨none, 2⟩ ⟨some .char, 1⟩, 0⟩ c ∧
      HasInstance ⟨.pair ⟨some .int, 0⟩ ⟨none, 0⟩, 0⟩ c ∧ c.deepest ≤ 2) ∧
    int.IsConcrete ∧ int.toArray.IsConcrete ∧ (int.agrees int.toArray ↔ int = int.toArray) :=
  ⟨(agreement_is_common_instance _ _).2.1 (by decide), by decide, by decide,
    (agreement_is_common_instance _ _).2.2.2.2 (by decide) (by decide)⟩

/-! ## §4 Making pairs and taking sides -/

/-- What is left of a type once it has been stored in a slot: a pair is erased, and a wildcard
loses its dimensions. -/
def asSide (t : Ty) : Ty :=
  match t.kind with
  | .pair _ _ => ⟨.base .pair, t.dims⟩
  | .any => .any
  | .base _ | .invalid => t

/-- A slot only forgets, so no instance is lost. -/
theorem HasInstance.asSide (h : t.HasInstance c) : t.asSide.HasInstance c := by
  cases h with
  | wildcard hc => exact .wildcard hc
  | erased hfst hsnd => exact .erased hfst hsnd
  | pair hfst hsnd _ _ => exact .erased hfst hsnd
  | scalar hb => exact .scalar hb

/-- What is left in a slot still agrees with the type that was stored. -/
theorem asSide_agrees (h : t.isValid) : t.asSide.agrees t := by
  obtain ⟨c, hc, _⟩ := exists_instance h
  exact agrees_of_common hc.asSide hc

theorem exists_slot (h : t.isValid) : ∃ s, t.toSlot? = some s ∧ s.toTy = t.asSide := by
  obtain ⟨kind, dims⟩ := t
  cases kind with
  | base b => exact ⟨⟨some b, dims⟩, rfl, rfl⟩
  | pair fst snd => exact ⟨⟨some .pair, dims⟩, rfl, rfl⟩
  | any => exact ⟨⟨none, dims⟩, rfl, rfl⟩
  | invalid => cases h

theorem toSlot?_of_not_isValid (h : ¬t.isValid) : t.toSlot? = none := by
  obtain ⟨kind, dims⟩ := t
  cases kind with
  | invalid => rfl
  | base | pair | any => exact absurd rfl h

theorem pairOf_of_slots {fst snd : Slot} (ha : a.toSlot? = some fst) (hb : b.toSlot? = some snd) :
    pairOf a b = ⟨.pair fst snd, 0⟩ := by
  simp [pairOf, ha, hb]

theorem isValid_pairOf_iff : (pairOf a b).isValid ↔ a.isValid ∧ b.isValid := by
  constructor
  · intro h
    constructor
    · by_contra ha
      simp [pairOf, toSlot?_of_not_isValid ha, invalid, isValid] at h
    · by_contra hb
      simp [pairOf, toSlot?_of_not_isValid hb, invalid, isValid] at h
  · rintro ⟨ha, hb⟩
    obtain ⟨fst, hfst, _⟩ := exists_slot ha
    obtain ⟨snd, hsnd, _⟩ := exists_slot hb
    rw [pairOf_of_slots hfst hsnd]
    rfl

/-- The sides of a new pair are what its slots keep. -/
theorem side?_pairOf (ha : a.isValid) (hb : b.isValid) (side : Side) :
    (pairOf a b).side? side = some (side.pick a b).asSide := by
  obtain ⟨fst, hfst, hleft⟩ := exists_slot ha
  obtain ⟨snd, hsnd, hright⟩ := exists_slot hb
  rw [pairOf_of_slots hfst hsnd]
  cases side with
  | fst => exact congrArg some hleft
  | snd => exact congrArg some hright

/-- The slot of an instance is concrete, and the slot of the type allows it. -/
theorem HasInstance.slots (h : t.HasInstance c) :
    ∃ s s', t.toSlot? = some s ∧ c.toSlot? = some s' ∧ s'.IsConcrete ∧ s.Allows s' := by
  cases h with
  | @wildcard dims c hc =>
    obtain ⟨kind, n⟩ := c
    cases kind with
    | base b => exact ⟨⟨none, dims⟩, ⟨some b, n⟩, rfl, rfl, by simp [Slot.IsConcrete], .inl rfl⟩
    | pair =>
      exact ⟨⟨none, dims⟩, ⟨some .pair, n⟩, rfl, rfl, by simp [Slot.IsConcrete], .inl rfl⟩
    | any | invalid => exact hc.elim
  -- The other instances have the very slot of the type: a pair is erased in both.
  | erased | pair => exact ⟨_, _, rfl, rfl, by simp [Slot.IsConcrete], .inr rfl⟩
  | scalar => exact ⟨_, _, rfl, rfl, by simp [Slot.IsConcrete], .inr rfl⟩

/-- A pair of instances is an instance of the pair. -/
theorem HasInstance.pairOf (hx : a.HasInstance x) (hy : b.HasInstance y) :
    (pairOf a b).HasInstance (pairOf x y) := by
  obtain ⟨fst, fst', ha, hx, hfst, hallows⟩ := hx.slots
  obtain ⟨snd, snd', hb, hy, hsnd, hallows'⟩ := hy.slots
  rw [pairOf_of_slots ha hb, pairOf_of_slots hx hy]
  exact .pair hfst hsnd hallows hallows'

/-- A pair is invalid exactly if one of its sides is. The sides of a valid one are the types it was
made of, except that a pair is erased and a wildcard becomes the plain one, and they still agree
with them. Pairs made of types that agree side by side agree. -/
theorem pairs_keep_agreement (a b c d : Ty) :
    (¬(pairOf a b).isValid ↔ ¬a.isValid ∨ ¬b.isValid) ∧
    ((pairOf a b).isValid →
      (∃ t, (pairOf a b).side? .fst = some t ∧ t.agrees a ∧ t = a.asSide) ∧
      ∃ u, (pairOf a b).side? .snd = some u ∧ u.agrees b ∧ u = b.asSide) ∧
    (a.agrees c → b.agrees d → (pairOf a b).agrees (pairOf c d)) := by
  refine ⟨?_, ?_, ?_⟩
  · rw [isValid_pairOf_iff, not_and_or]
  · intro h
    obtain ⟨ha, hb⟩ := isValid_pairOf_iff.1 h
    exact ⟨⟨a.asSide, side?_pairOf ha hb .fst, asSide_agrees ha, rfl⟩,
      ⟨b.asSide, side?_pairOf ha hb .snd, asSide_agrees hb, rfl⟩⟩
  · intro hac hbd
    obtain ⟨x, ha, hc⟩ := agrees_iff_common.1 hac
    obtain ⟨y, hb, hd⟩ := agrees_iff_common.1 hbd
    exact agrees_of_common (ha.pairOf hb) (hc.pairOf hd)

-- A pair nested in a pair, against the erased pair; an open array against a string.
/-- A pair in a pair, of which only that it is a pair is kept. -/
theorem pairs_keep_agreement_nested :
    (pairOf int bool).agrees erasedPair ∧ any.toArray.agrees string ∧
    (pairOf (pairOf int bool) any.toArray).agrees (pairOf erasedPair string) ∧
    ∃ t, (pairOf (pairOf int bool) any.toArray).side? .fst = some t ∧
      t.agrees (pairOf int bool) ∧ t = erasedPair := by
  obtain ⟨_, hsides, hagrees⟩ :=
    pairs_keep_agreement (pairOf int bool) any.toArray erasedPair string
  exact ⟨by decide, by decide, hagrees (by decide) (by decide), (hsides (by decide)).1⟩

end Ty

end ArmCompiler
