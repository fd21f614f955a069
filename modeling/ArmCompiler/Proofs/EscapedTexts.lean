import ArmCompiler.Proofs.Buffers
import Mathlib.Data.List.Chain

/-!
# Escaped Texts

A text of the data section stands between quotes in one line, so what would end the line or the
string is escaped. Decoding gives the text back, and the quotes around it close where they should.

The assembler reads more into an escape than what was written: a backslash and digits are one byte,
and up to three octal digits belong to it. A null character is written with a single digit, so a
digit of the text that follows it is taken for a part of the escape. This is the only way in which
the assembler can read something else than the text. Main statements:
`Escape.encode_recoverable_and_closed` and `Buffer.entries_assemble_iff`.

## Contents
- §1: decoding what was encoded
- §2: characters that are always escaped
- §3: backslashes before a quote
- §4: how the assembler reads a string
- §5: reading what was encoded
- §6: entries of the data section
-/

namespace ArmCompiler

namespace Escape

/-! ## §1 Decoding what was encoded -/

theorem encodeChar_of_some {c e : Char} (h : letter? c = some e) : encodeChar c = ['\\', e] := by
  simp [encodeChar, h]

theorem encodeChar_of_none {c : Char} (h : letter? c = none) : encodeChar c = [c] := by
  simp [encodeChar, h]

@[simp]
theorem encodeChars_cons (c : Char) (rest : List Char) :
    encodeChars (c :: rest) = encodeChar c ++ encodeChars rest := rfl

/-- Every escape that encoding writes is known to decoding. -/
theorem unescape?_of_letter? {c e : Char} (h : letter? c = some e) : unescape? e = some c := by
  unfold letter? at h
  split at h <;> cases h <;> rfl

theorem ne_backslash_of_letter? {c : Char} (h : letter? c = none) : c ≠ '\\' := by
  rintro rfl
  cases h

theorem decodeChars_cons_of_ne {c : Char} (h : c ≠ '\\') (rest : List Char) :
    decodeChars (c :: rest) = c :: decodeChars rest := by
  cases rest <;> simp [decodeChars, h]

/-- A written character is decoded on its own, whatever follows it. -/
theorem decodeChars_encodeChar (c : Char) (rest : List Char) :
    decodeChars (encodeChar c ++ rest) = c :: decodeChars rest := by
  cases h : letter? c with
  | some e => simp [encodeChar_of_some h, decodeChars, unescape?_of_letter? h]
  | none =>
    rw [encodeChar_of_none h]
    exact decodeChars_cons_of_ne (ne_backslash_of_letter? h) rest

theorem decodeChars_encodeChars (text : List Char) : decodeChars (encodeChars text) = text := by
  induction text with
  | nil => rfl
  | cons c rest ih => rw [encodeChars_cons, decodeChars_encodeChar, ih]

theorem decode_encode (text : String) : decode (encode text) = text := by
  rw [decode, encode, String.toList_ofList, decodeChars_encodeChars, String.ofList_toList]

/-! ## §2 Characters that are always escaped -/

/-- A character that has an escape is not written as it is, except as the letter of one. -/
theorem notMem_encodeChars {c : Char} (hescaped : (letter? c).isSome)
    (hletter : ∀ d, letter? d ≠ some c) (hbackslash : c ≠ '\\') (text : List Char) :
    c ∉ encodeChars text := by
  intro hmem
  obtain ⟨d, _, hd⟩ := List.mem_flatMap.1 hmem
  cases h : letter? d with
  | some e =>
    simp only [encodeChar_of_some h, List.mem_cons, List.not_mem_nil, or_false] at hd
    rcases hd with rfl | rfl
    · exact hbackslash rfl
    · exact hletter d h
  | none =>
    simp only [encodeChar_of_none h, List.mem_singleton] at hd
    simp [hd, h] at hescaped

/-- The letters of escapes are printable. -/
theorem letter?_ne_control {c : Char} (hcontrol : c.toNat < 32) (d : Char) :
    letter? d ≠ some c := by
  intro h
  unfold letter? at h
  split at h <;> cases h <;> exact absurd hcontrol (by decide)

/-! ## §3 Backslashes before a quote -/

/-- How many backslashes stand in a row at the end. -/
def backslashRun (text : List Char) : Nat := (text.reverse.takeWhile (· == '\\')).length

theorem backslashRun_snoc (text : List Char) (c : Char) :
    backslashRun (text ++ [c]) = if c = '\\' then backslashRun text + 1 else 0 := by
  unfold backslashRun
  rw [List.reverse_append, List.reverse_singleton, List.singleton_append, List.takeWhile_cons]
  by_cases h : c = '\\' <;> simp [h]

/-- What is written for a character ends in an even number of backslashes, if what stands before it
does. -/
theorem even_backslashRun_encodeChar {before : List Char} (h : backslashRun before % 2 = 0)
    (c : Char) : backslashRun (before ++ encodeChar c) % 2 = 0 := by
  cases hc : letter? c with
  | some e =>
    have hsplit : before ++ ['\\', e] = before ++ ['\\'] ++ [e] := by simp
    rw [encodeChar_of_some hc, hsplit, backslashRun_snoc, backslashRun_snoc, if_pos rfl]
    -- A backslash is written twice; any other letter ends the run.
    split <;> omega
  | none => rw [encodeChar_of_none hc, backslashRun_snoc, if_neg (ne_backslash_of_letter? hc)]

theorem encodeChars_append (a b : List Char) :
    encodeChars (a ++ b) = encodeChars a ++ encodeChars b := List.flatMap_append

theorem even_backslashRun (text : List Char) : backslashRun (encodeChars text) % 2 = 0 := by
  induction text using List.reverseRecOn with
  | nil => rfl
  | append_singleton earlier c ih =>
    have hlast : encodeChars [c] = encodeChar c := List.flatMap_singleton ..
    rw [encodeChars_append, hlast]
    exact even_backslashRun_encodeChar ih c

/-- A quote in what is written for one character comes right after a backslash. -/
theorem encodeChar_eq_append_quote {c : Char} {before after : List Char}
    (h : encodeChar c = before ++ '"' :: after) : before = ['\\'] := by
  cases hc : letter? c with
  | some e =>
    rw [encodeChar_of_some hc] at h
    rcases before with _ | ⟨b, _ | ⟨b', before⟩⟩
    · simp at h
    · simpa using (List.cons.inj h).1.symm
    · simp at h
  | none =>
    rw [encodeChar_of_none hc] at h
    rcases before with _ | ⟨b, before⟩
    · obtain rfl : c = '"' := (List.cons.inj h).1
      cases hc
    · simp at h

/-- A quote that is written is the letter of an escape. -/
theorem encodeChars_eq_append_quote {text before after : List Char}
    (h : encodeChars text = before ++ '"' :: after) :
    ∃ earlier, before = encodeChars earlier ++ ['\\'] := by
  induction text generalizing before with
  | nil => simp [encodeChars] at h
  | cons c rest ih =>
    -- The quote is in the rest, or in what is written for the first character.
    rcases List.append_eq_append_iff.1 h with ⟨middle, rfl, hrest⟩ | ⟨middle, hc, hrest⟩
    · obtain ⟨earlier, rfl⟩ := ih hrest
      exact ⟨c :: earlier, by simp⟩
    · cases middle with
      | nil =>
        have hfirst : encodeChars rest = [] ++ '"' :: after := hrest.symm
        obtain ⟨earlier, hbefore⟩ := ih hfirst
        simp at hbefore
      | cons d middle =>
        obtain rfl : '"' = d := (List.cons.inj hrest).1
        exact ⟨[], encodeChar_eq_append_quote hc⟩

theorem odd_backslashRun_of_quote {text before after : List Char}
    (h : encodeChars text = before ++ '"' :: after) : backslashRun before % 2 = 1 := by
  obtain ⟨earlier, rfl⟩ := encodeChars_eq_append_quote h
  have heven := even_backslashRun earlier
  rw [backslashRun_snoc, if_pos rfl]
  omega

/-- Between quotes, only the last quote closes the string. -/
theorem closes_iff_last {text before after : List Char}
    (h : encodeChars text ++ ['"'] = before ++ '"' :: after) :
    backslashRun before % 2 = 0 ↔ after = [] := by
  -- The quote is the one that is added, or one of the text.
  rcases List.eq_nil_or_concat after with rfl | ⟨front, last, rfl⟩
  · obtain ⟨rfl, -⟩ := List.append_inj' h rfl
    exact iff_of_true (even_backslashRun text) rfl
  · have hsplit : encodeChars text ++ ['"'] = (before ++ '"' :: front) ++ [last] := by simpa using h
    have hodd := odd_backslashRun_of_quote (List.append_inj' hsplit rfl).1
    simp [hodd]

theorem toList_encode (text : String) : (encode text).toList = encodeChars text.toList :=
  String.toList_ofList

theorem line_ascii (contents : String) :
    (Instruction.directive (.ascii contents)).line.toList =
      ("\t.ascii \"".toList ++ contents.toList ++ ['"']) ++ ['\n'] := by
  have htext : (Instruction.directive (.ascii contents)).line =
      "\t" ++ (".ascii \"" ++ contents ++ "\"") ++ "\n" := rfl
  simp [htext]

/-- Decoding recovers an encoded text, so no two texts are written alike. No line end and no null
character is written as it is, every quote has an odd number of backslashes right before it, and
their number at the end is even. So the line of a text is one line, and of the quotes after the
first exactly the last is not escaped. -/
theorem encode_recoverable_and_closed (text : String) :
    decode (encode text) = text ∧
    (∀ other, encode other = encode text → other = text) ∧
    ('\n' ∉ (encode text).toList ∧ '\r' ∉ (encode text).toList ∧ '\x00' ∉ (encode text).toList) ∧
    (∀ before after, (encode text).toList = before ++ '"' :: after →
      backslashRun before % 2 = 1) ∧
    backslashRun (encode text).toList % 2 ≠ 1 ∧
    (∃ front, (Instruction.directive (.ascii (encode text))).line.toList = front ++ ['\n'] ∧
      '\n' ∉ front ∧ '\r' ∉ front ∧ '\x00' ∉ front) ∧
    ∀ before after, (encode text).toList ++ ['"'] = before ++ '"' :: after →
      (backslashRun before % 2 = 0 ↔ after = []) := by
  rw [toList_encode]
  have hcontrol : ∀ {c : Char}, c.toNat < 32 → (letter? c).isSome →
      c ∉ encodeChars text.toList := by
    intro c hc hescaped
    refine notMem_encodeChars hescaped (letter?_ne_control hc) ?_ text.toList
    rintro rfl
    exact absurd hc (by decide)
  have hline : '\n' ∉ encodeChars text.toList := hcontrol (by decide) rfl
  have hreturn : '\r' ∉ encodeChars text.toList := hcontrol (by decide) rfl
  have hnull : '\x00' ∉ encodeChars text.toList := hcontrol (by decide) rfl
  refine ⟨decode_encode text, fun other h => ?_, ⟨hline, hreturn, hnull⟩,
    fun before after h => odd_backslashRun_of_quote h, ?_, ⟨_, line_ascii _, ?_⟩,
    fun before after h => closes_iff_last h⟩
  · rw [← decode_encode other, h, decode_encode]
  · have heven := even_backslashRun text.toList
    omega
  · rw [toList_encode]
    simp [hline, hreturn, hnull]

end Escape

namespace Quoted

/-! ## §4 How the assembler reads a string -/

/-- Where the assembler stands inside a quoted string: between two characters, after a backslash, or
in a numeric escape that may take some more digits. -/
inductive State
  | plain
  | escape
  | octal (left value : Nat)
  deriving DecidableEq

/-- The value of an octal digit. -/
def octalDigit? (c : Char) : Option Nat :=
  if '0' ≤ c ∧ c ≤ '7' then some (c.toNat - '0'.toNat) else none

/-- The byte that an escape letter stands for. -/
def letterByte? : Char → Option UInt8
  | 'b' => some 8
  | 'n' => some 10
  | 'f' => some 12
  | 'r' => some 13
  | '"' => some 34
  | '\\' => some 92
  | _ => none

/-- The byte of a numeric escape that was not ended yet. -/
def State.pending : State → List UInt8
  | .octal _ value => [UInt8.ofNat value]
  | _ => []

/-- One character that does not close the string: the bytes it completes, and where it leads. Only a
known escape may follow a backslash. -/
def State.step (state : State) (c : Char) : Option (List UInt8 × State) :=
  match state, octalDigit? c with
  | .escape, some digit => some ([], .octal 2 digit)
  | .escape, none => (letterByte? c).map fun byte => ([byte], .plain)
  | .octal (left + 1) value, some digit => some ([], .octal left (8 * value + digit))
  | _, _ =>
    if c = '\\' then some (state.pending, .escape)
    else some (state.pending ++ String.utf8EncodeChar c, .plain)

/-- The bytes of a string up to the quote that closes it, and what follows the quote. -/
def read : State → List Char → Option (List UInt8 × List Char)
  | _, [] => none
  | state, c :: rest =>
    if c = '"' ∧ state ≠ .escape then some (state.pending, rest)
    else
      (state.step c).bind fun (bytes, next) =>
        (read next rest).map fun (others, tail) => (bytes ++ others, tail)

/-- The bytes that a directive with a quoted string puts into the section. Nothing may follow the
string. -/
def directiveBytes? (line : String) : Option (List UInt8) :=
  match line.toList with
  | '.' :: 'a' :: 's' :: 'c' :: 'i' :: 'i' :: ' ' :: '"' :: inside =>
    match read .plain inside with
    | some (bytes, []) => some bytes
    | _ => none
  | _ => none

/-! ## §5 Reading what was encoded -/

/-- The bytes of a text. -/
def utf8 (text : List Char) : List UInt8 := text.flatMap String.utf8EncodeChar

/-- A digit would be taken for a part of the escape before it. -/
def State.grows : State → Bool
  | .octal (_ + 1) _ => true
  | _ => false

/-- No null character stands directly before an octal digit. -/
def NullsApart (text : List Char) : Prop :=
  text.IsChain fun c d => c = '\x00' → octalDigit? d = none

/-- The escape that the state is in, if any, and those of the text end where they should. -/
def State.Apart (state : State) (text : List Char) : Prop :=
  (state.grows = true → ∀ d ∈ text.head?, octalDigit? d = none) ∧ NullsApart text

theorem apart_plain {text : List Char} : State.plain.Apart text ↔ NullsApart text := by
  simp [State.Apart, State.grows]

theorem nullsApart_cons_null {rest : List Char} :
    NullsApart ('\x00' :: rest) ↔ (State.octal 2 0).Apart rest := by
  simp [NullsApart, State.Apart, State.grows, List.isChain_cons]

theorem nullsApart_cons_of_ne {c : Char} (h : c ≠ '\x00') {rest : List Char} :
    NullsApart (c :: rest) ↔ NullsApart rest := by
  simp [NullsApart, List.isChain_cons, h]

/-- What reading gives: the bytes of the text if all escapes end where they should, and fewer bytes
otherwise. -/
def Reads (state : State) (text : List Char) (bytes : List UInt8) : Prop :=
  (state.Apart text ∧ bytes = state.pending ++ utf8 text) ∨
    (¬ state.Apart text ∧ bytes.length < state.pending.length + (utf8 text).length)

theorem step_backslash {state : State} (h : state ≠ .escape) :
    state.step '\\' = some (state.pending, .escape) := by
  have hdigit : octalDigit? '\\' = none := by decide
  cases state with
  | escape => exact absurd rfl h
  | plain => simp [State.step]
  | octal left value => cases left <;> simp [State.step, hdigit]

/-- An ordinary character stands for its own bytes unless it is a digit that the escape before it
takes. -/
theorem step_of_letter?_none {state : State} {c : Char} (hstate : state ≠ .escape)
    (hc : Escape.letter? c = none) (hapart : state.grows = true → octalDigit? c = none) :
    state.step c = some (state.pending ++ String.utf8EncodeChar c, .plain) := by
  have hne := Escape.ne_backslash_of_letter? hc
  cases state with
  | escape => exact absurd rfl hstate
  | plain => simp [State.step, hne]
  | octal left value =>
    cases left with
    | zero => simp [State.step, hne]
    | succ left => simp [State.step, hne, hapart rfl]

/-- The escapes of encoding other than the null character's stand for one byte each. -/
theorem letterByte?_of_letter? {c e : Char} (h : Escape.letter? c = some e) (hc : c ≠ '\x00') :
    octalDigit? e = none ∧
      ∃ byte, letterByte? e = some byte ∧ String.utf8EncodeChar c = [byte] := by
  unfold Escape.letter? at h
  split at h <;> cases h
  · exact absurd rfl hc
  all_goals exact ⟨by decide, _, rfl, by decide⟩

theorem Reads.length_le {state : State} {text : List Char} {bytes : List UInt8}
    (h : Reads state text bytes) : bytes.length ≤ state.pending.length + (utf8 text).length := by
  rcases h with ⟨-, rfl⟩ | ⟨-, hless⟩
  · simp
  · exact hless.le

/-- Reading goes on between two characters, or in the escape of a null character. -/
theorem Reads.cons {state next : State} {c : Char} {rest : List Char} {bytes : List UInt8}
    (h : Reads next rest bytes) (hapart : state.Apart (c :: rest) ↔ next.Apart rest)
    {done : List UInt8} (hdone : done ++ next.pending = state.pending ++ String.utf8EncodeChar c) :
    Reads state (c :: rest) (done ++ bytes) := by
  -- A byte that is lost in the rest stays lost.
  have hlength := congrArg List.length hdone
  simp only [List.length_append] at hlength
  rcases h with ⟨happy, rfl⟩ | ⟨hbad, hless⟩
  · refine .inl ⟨hapart.2 happy, ?_⟩
    rw [← List.append_assoc, hdone, List.append_assoc]
    rfl
  · refine .inr ⟨fun hgood => hbad (hapart.1 hgood), ?_⟩
    simp only [utf8, List.flatMap_cons, List.length_append] at hless ⊢
    omega

theorem read_cons {state next : State} {c : Char} {rest tail : List Char}
    {bytes others : List UInt8} (hopen : c ≠ '"' ∨ state = .escape)
    (hstep : state.step c = some (bytes, next)) (hrest : read next rest = some (others, tail)) :
    read state (c :: rest) = some (bytes ++ others, tail) := by
  have hnot : ¬ (c = '"' ∧ state ≠ .escape) := by tauto
  simp [read, hnot, hstep, hrest]

/-- The encoded text is read to the quote after it. -/
def ReadsEncoded (state : State) (text : List Char) : Prop :=
  ∀ tail, ∃ bytes, read state (Escape.encodeChars text ++ '"' :: tail) = some (bytes, tail) ∧
    Reads state text bytes

/-- No character that has an escape is a digit. -/
theorem octalDigit?_of_letter? {c e : Char} (h : Escape.letter? c = some e) :
    octalDigit? c = none := by
  unfold Escape.letter? at h
  split at h <;> cases h <;> decide

theorem apart_cons_of_letter? {state : State} {c e : Char} (h : Escape.letter? c = some e)
    (rest : List Char) : state.Apart (c :: rest) ↔ NullsApart (c :: rest) := by
  simp [State.Apart, octalDigit?_of_letter? h]

theorem ReadsEncoded.null {state : State} (hstate : state ≠ .escape) {rest : List Char}
    (h : ReadsEncoded (.octal 2 0) rest) : ReadsEncoded state ('\x00' :: rest) := by
  intro tail
  obtain ⟨bytes, hread, hreads⟩ := h tail
  refine ⟨state.pending ++ ([] ++ bytes), ?_, ?_⟩
  · exact read_cons (.inl (by decide)) (step_backslash hstate) (read_cons (.inr rfl) rfl hread)
  · exact hreads.cons ((apart_cons_of_letter? rfl rest).trans nullsApart_cons_null) rfl

theorem ReadsEncoded.escaped {state : State} (hstate : state ≠ .escape) {c e : Char}
    (hc : Escape.letter? c = some e) (hnull : c ≠ '\x00') {rest : List Char}
    (h : ReadsEncoded .plain rest) : ReadsEncoded state (c :: rest) := by
  intro tail
  obtain ⟨hdigit, byte, hbyte, hutf⟩ := letterByte?_of_letter? hc hnull
  obtain ⟨bytes, hread, hreads⟩ := h tail
  have hstep : State.escape.step e = some ([byte], .plain) := by
    simp [State.step, hdigit, hbyte]
  have hapart : state.Apart (c :: rest) ↔ State.plain.Apart rest :=
    (apart_cons_of_letter? hc rest).trans ((nullsApart_cons_of_ne hnull).trans apart_plain.symm)
  refine ⟨state.pending ++ ([byte] ++ bytes), ?_, ?_⟩
  · rw [Escape.encodeChars_cons, Escape.encodeChar_of_some hc]
    exact read_cons (.inl (by decide)) (step_backslash hstate) (read_cons (.inr rfl) hstep hread)
  · rw [← List.append_assoc]
    exact hreads.cons hapart (by simp [hutf, State.pending])

theorem ReadsEncoded.ordinary {state : State} (hstate : state ≠ .escape) {c : Char}
    (hc : Escape.letter? c = none) (hfree : state.grows = true → octalDigit? c = none)
    {rest : List Char} (h : ReadsEncoded .plain rest) : ReadsEncoded state (c :: rest) := by
  intro tail
  obtain ⟨bytes, hread, hreads⟩ := h tail
  have hquote : c ≠ '"' := by rintro rfl; cases hc
  have hnull : c ≠ '\x00' := by rintro rfl; cases hc
  have hapart : state.Apart (c :: rest) ↔ State.plain.Apart rest := by
    rw [apart_plain, State.Apart, nullsApart_cons_of_ne hnull]
    exact and_iff_right fun hgrows d hd => by cases hd; exact hfree hgrows
  refine ⟨(state.pending ++ String.utf8EncodeChar c) ++ bytes, ?_,
    hreads.cons hapart (by simp [State.pending])⟩
  rw [Escape.encodeChars_cons, Escape.encodeChar_of_none hc]
  exact read_cons (.inl hquote) (step_of_letter?_none hstate hc hfree) hread

/-- A digit that goes into the escape before it has no byte of its own. -/
theorem ReadsEncoded.taken {left value digit : Nat} {c : Char} (hdigit : octalDigit? c = some digit)
    {rest : List Char} (h : ReadsEncoded (.octal left (8 * value + digit)) rest) :
    ReadsEncoded (.octal (left + 1) value) (c :: rest) := by
  intro tail
  obtain ⟨bytes, hread, hreads⟩ := h tail
  have hquote : c ≠ '"' := by rintro rfl; cases hdigit
  have hletter : Escape.letter? c = none := by
    cases hc : Escape.letter? c with
    | some e => simp [octalDigit?_of_letter? hc] at hdigit
    | none => rfl
  refine ⟨[] ++ bytes, ?_, .inr ⟨fun hapart => ?_, ?_⟩⟩
  · rw [Escape.encodeChars_cons, Escape.encodeChar_of_none hletter]
    exact read_cons (.inl hquote) (by simp [State.step, hdigit]) hread
  · simp [hapart.1 rfl c rfl] at hdigit
  · have hlength := hreads.length_le
    have hbyte := String.length_utf8EncodeChar c
    have hpos := c.utf8Size_pos
    simp only [State.pending, utf8, List.flatMap_cons, List.length_append, List.length_singleton,
      List.length_nil] at hlength ⊢
    omega

theorem readsEncoded (text : List Char) {state : State} (hstate : state ≠ .escape) :
    ReadsEncoded state text := by
  -- The state is general: after a null character the induction goes on inside its escape.
  induction text generalizing state with
  | nil =>
    refine fun tail => ⟨state.pending, by simp [read, Escape.encodeChars, hstate], .inl ⟨?_, ?_⟩⟩
    · simp [State.Apart, NullsApart]
    · simp [utf8]
  | cons c rest ih =>
    cases hc : Escape.letter? c with
    | some e =>
      -- Only the escape of a null character is a digit, and can take more of them.
      by_cases hnull : c = '\x00'
      · exact hnull ▸ .null hstate (ih nofun)
      · exact .escaped hstate hc hnull (ih nofun)
    | none =>
      by_cases hfree : state.grows = true → octalDigit? c = none
      · exact .ordinary hstate hc hfree (ih nofun)
      · obtain ⟨hgrows, hsome⟩ := Classical.not_imp.1 hfree
        obtain ⟨digit, hdigit⟩ := Option.ne_none_iff_exists'.1 hsome
        match state, hgrows with
        | .octal (left + 1) value, _ => exact .taken hdigit (ih nofun)

theorem toUTF8_data (text : String) : text.toUTF8.data.toList = utf8 text.toList := by
  conv_lhs => rw [← String.ofList_toList (s := text), String.toUTF8_eq_toByteArray,
    String.toByteArray_ofList, List.utf8Encode, List.data_toByteArray]
  rfl

theorem length_utf8 (text : String) : (utf8 text.toList).length = text.utf8ByteSize := by
  rw [← toUTF8_data, String.toUTF8_eq_toByteArray, Array.length_toList]
  exact String.size_toByteArray

theorem directiveBytes?_ascii (contents : String) :
    directiveBytes? (Directive.ascii contents).text =
      match read .plain (contents.toList ++ ['"']) with
      | some (bytes, []) => some bytes
      | _ => none := by
  have htext : (Directive.ascii contents).text.toList =
      ".ascii \"".toList ++ (contents.toList ++ ['"']) := by simp [Directive.text]
  rw [directiveBytes?, htext]
  rfl

/-- What the assembler puts into the section for an encoded text. -/
theorem directiveBytes?_encode (text : String) :
    ∃ bytes, directiveBytes? (Directive.ascii (Escape.encode text)).text = some bytes ∧
      Reads .plain text.toList bytes := by
  have hplain : State.plain ≠ .escape := nofun
  obtain ⟨bytes, hread, hreads⟩ := readsEncoded text.toList hplain []
  refine ⟨bytes, ?_, hreads⟩
  rw [directiveBytes?_ascii, Escape.toList_encode, hread]

/-- The assembler reads the bytes of the text, and as many as the text has, exactly if no null
character stands before a digit. -/
theorem directiveBytes?_encode_iff (text : String) :
    ∃ bytes, directiveBytes? (Directive.ascii (Escape.encode text)).text = some bytes ∧
      bytes.length ≤ text.utf8ByteSize ∧
      (bytes = text.toUTF8.data.toList ↔ NullsApart text.toList) ∧
      (text.utf8ByteSize = bytes.length ↔ NullsApart text.toList) := by
  obtain ⟨bytes, hbytes, hreads⟩ := directiveBytes?_encode text
  rw [toUTF8_data, ← length_utf8]
  refine ⟨bytes, hbytes, by simpa [State.pending] using hreads.length_le, ?_⟩
  rcases hreads with ⟨hapart, rfl⟩ | ⟨hbad, hless⟩
  · rw [apart_plain] at hapart
    simp [State.pending, hapart]
  · rw [apart_plain] at hbad
    simp only [State.pending, List.length_nil, Nat.zero_add] at hless
    refine ⟨iff_of_false (fun heq => ?_) hbad, iff_of_false hless.ne' hbad⟩
    exact hless.ne (congrArg List.length heq)

end Quoted

namespace Buffer

open Quoted

/-! ## §6 Entries of the data section -/

/-- Each text has one entry, with its length as a word and its encoded form. The assembler reads the
encoded form to its end and never into more bytes than the text has. It reads exactly the bytes of
the text if no null character of the text stands directly before an octal digit, and only then. That
these are as many as the word says asks in addition that the length fits a word. -/
theorem entries_assemble_iff (buffer : Buffer) :
    buffer.instructions = buffer.header ++ buffer.sequences.flatMap (·.code) ++
      (if buffer.messages = [] then [] else .directive .dataSection ::
        (buffer.messages.mapIdx fun i text =>
          [.label ("msg_" ++ i.repr), .directive (.word (UInt32.ofNat text.utf8ByteSize)),
            .directive (.ascii (Escape.encode text))]).flatten) ∧
    ∀ text : String, ∃ bytes,
      directiveBytes? (Directive.ascii (Escape.encode text)).text = some bytes ∧
      bytes.length ≤ text.utf8ByteSize ∧
      (bytes = text.toUTF8.data.toList ↔ NullsApart text.toList) ∧
      (bytes = text.toUTF8.data.toList ∧ (UInt32.ofNat text.utf8ByteSize).toNat = bytes.length ↔
        NullsApart text.toList ∧ text.utf8ByteSize < 2 ^ 32) ∧
      (text.utf8ByteSize < 2 ^ 32 →
        ((UInt32.ofNat text.utf8ByteSize).toNat = bytes.length ↔ NullsApart text.toList)) := by
  refine ⟨buffer.instructions_eq, fun text => ?_⟩
  obtain ⟨bytes, hbytes, hle, hsame, hlength⟩ := directiveBytes?_encode_iff text
  refine ⟨bytes, hbytes, hle, hsame, ?_, ?_⟩
  · rw [hsame]
    refine and_congr_right fun hapart => ?_
    rw [← hlength.2 hapart, toNat_word_iff]
  · intro hfits
    rw [(toNat_word_iff _).2 hfits, hlength]

/-- A null character and a digit: the length says two bytes, and the assembler reads one. -/
theorem entries_assemble_iff_null_digit :
    ({ messages := ["\x001"] } : Buffer).instructions =
        [.directive .textSection, .directive (.global "main"), .directive .dataSection,
          .label "msg_0", .directive (.word 2), .directive (.ascii "\\01")] ∧
      directiveBytes? (Directive.ascii "\\01").text = some [1] ∧
      ¬ ∃ bytes, directiveBytes? (Directive.ascii (Escape.encode "\x001")).text = some bytes ∧
        (UInt32.ofNat "\x001".utf8ByteSize).toNat = bytes.length := by
  refine ⟨(entries_assemble_iff { messages := ["\x001"] }).1.trans (by decide), by decide, ?_⟩
  rintro ⟨bytes, hbytes, hlength⟩
  obtain ⟨bytes', hbytes', -, -, -, hiff⟩ := (entries_assemble_iff {}).2 "\x001"
  obtain rfl : bytes' = bytes := Option.some.inj (hbytes'.symm.trans hbytes)
  exact absurd ((hiff (by decide)).1 hlength) (by simp [NullsApart]; decide)

end Buffer

end ArmCompiler
