import ArmCompiler.Proofs.StackDiscipline

/-!
# Moving the Stack Pointer in Chunks

One instruction moves the stack pointer by at most the number of bytes that the settings give. What
that number is makes no other difference: two settings that differ in it lead to the same error, or
to programs that are the same line by line once neighbouring moves in one direction are merged. Main
statement: `Program.generate_chunked`.

## Contents
- §1: moves of the stack pointer and their merging
- §2: listings up to merging
- §3: routines and expanded code
- §4: programs under two settings
- §5: the size of the moves
- §6: main statement
-/

namespace ArmCompiler

open Lower

/-! ## §1 Moves and their merging -/

/-- The direction and the distance of an instruction that adds a constant to the stack pointer or
subtracts one from it. -/
def Instruction.stackStep? : Instruction → Option (ArithOp × Int)
  | .arith .add false .sp .sp (.imm bytes) => some (.add, bytes)
  | .arith .sub false .sp .sp (.imm bytes) => some (.sub, bytes)
  | _ => none

/-- The move that two moves in one direction make up. -/
def Instruction.join? (i j : Instruction) : Option Instruction :=
  match i.stackStep?, j.stackStep? with
  | some (op, a), some (op', b) => if op = op' then some (.op op .sp .sp (.imm (a + b))) else none
  | _, _ => none

/-- Puts an instruction in front of others. A move is joined with a move in the same direction that
comes first. -/
def consMerged (i : Instruction) : List Instruction → List Instruction
  | [] => [i]
  | j :: rest =>
    match i.join? j with
    | some k => k :: rest
    | none => i :: j :: rest

/-- Code in which every run of moves in one direction is replaced by one move by their sum. -/
def mergeMoves (code : List Instruction) : List Instruction := code.foldr consMerged []

theorem Instruction.stackStep?_op {i : Instruction} {op : ArithOp} {a : Int}
    (h : i.stackStep? = some (op, a)) (b : Int) :
    (Instruction.op op .sp .sp (.imm b)).stackStep? = some (op, b) := by
  unfold stackStep? at h
  split at h
  · cases h
    rfl
  · cases h
    rfl
  · cases h

theorem Instruction.join?_eq_some {i j k : Instruction} (h : i.join? j = some k) :
    ∃ op a b, i.stackStep? = some (op, a) ∧ j.stackStep? = some (op, b) ∧
      k = .op op .sp .sp (.imm (a + b)) := by
  unfold join? at h
  split at h
  · rename_i op a op' b hi hj
    split at h
    · subst_vars
      exact ⟨op', a, b, hi, hj, (Option.some.inj h).symm⟩
    · cases h
  · cases h

/-- Two moves in one direction come to the same in front of any code as the move they make up. -/
theorem consMerged_consMerged {i j k : Instruction} (h : i.join? j = some k)
    (code : List Instruction) : consMerged i (consMerged j code) = consMerged k code := by
  cases code with
  | nil => simp [consMerged, h]
  | cons next rest =>
    obtain ⟨op, a, b, hi, hj, rfl⟩ := Instruction.join?_eq_some h
    have hstep := Instruction.stackStep?_op hi
    cases hnext : next.stackStep? with
    | none => simp [consMerged, Instruction.join?, hi, hj, hnext, hstep]
    | some move =>
      obtain ⟨op', c⟩ := move
      by_cases hop : op = op'
      · subst hop
        simp [consMerged, Instruction.join?, hi, hj, hnext, hstep, Int.add_assoc]
      · simp [consMerged, Instruction.join?, hi, hj, hnext, hstep, hop]

/-- Merging an instruction into code can be done before or after code is merged behind it. -/
theorem foldr_consMerged (i : Instruction) (code after : List Instruction) :
    (consMerged i code).foldr consMerged after = consMerged i (code.foldr consMerged after) := by
  cases code with
  | nil => rfl
  | cons j rest =>
    cases hjoin : i.join? j with
    | none => simp [consMerged, hjoin]
    | some k =>
      have hmerged : consMerged i (j :: rest) = k :: rest := by simp [consMerged, hjoin]
      rw [hmerged, List.foldr_cons, List.foldr_cons, consMerged_consMerged hjoin]

/-- What is merged piece by piece is merged as a whole. -/
theorem mergeMoves_append (a b : List Instruction) :
    mergeMoves (a ++ b) = (mergeMoves a).foldr consMerged (mergeMoves b) := by
  induction a with
  | nil => rfl
  | cons i rest ih =>
    calc mergeMoves (i :: rest ++ b)
        = consMerged i (mergeMoves (rest ++ b)) := rfl
      _ = consMerged i ((mergeMoves rest).foldr consMerged (mergeMoves b)) := by rw [ih]
      _ = (consMerged i (mergeMoves rest)).foldr consMerged (mergeMoves b) :=
          (foldr_consMerged ..).symm
      _ = (mergeMoves (i :: rest)).foldr consMerged (mergeMoves b) := rfl

/-- Code can be put together before or after merging. -/
theorem mergeMoves_append_congr {a a' b b' : List Instruction} (ha : mergeMoves a = mergeMoves a')
    (hb : mergeMoves b = mergeMoves b') : mergeMoves (a ++ b) = mergeMoves (a' ++ b') := by
  rw [mergeMoves_append, mergeMoves_append, ha, hb]

/-- However a distance is cut into pieces, the moves by these pieces make up one move. -/
theorem mergeMoves_steps {op : ArithOp} (hop : op = .add ∨ op = .sub) (steps : List Nat) :
    mergeMoves (steps.map fun (step : Nat) => .op op .sp .sp (.imm step)) =
      if steps = [] then [] else [.op op .sp .sp (.imm steps.sum)] := by
  have hstep (bytes : Int) :
      (Instruction.op op .sp .sp (.imm bytes)).stackStep? = some (op, bytes) := by
    rcases hop with rfl | rfl <;> rfl
  induction steps with
  | nil => rfl
  | cons step rest ih =>
    have hcons : mergeMoves ((step :: rest).map fun (step : Nat) => .op op .sp .sp (.imm step)) =
        consMerged (.op op .sp .sp (.imm step))
          (mergeMoves (rest.map fun (step : Nat) => .op op .sp .sp (.imm step))) := rfl
    rw [hcons, ih]
    cases rest <;> simp [consMerged, Instruction.join?, hstep]

/-- However a move of the stack pointer is cut, merging gives one step, or none. -/
theorem mergeMoves_adjustStack {op : ArithOp} (hop : op = .add ∨ op = .sub) (limit bytes : Nat) :
    mergeMoves (adjustStack op limit bytes) =
      if bytes = 0 then [] else [.op op .sp .sp (.imm bytes)] := by
  have hnone : chunks limit bytes = [] ↔ bytes = 0 := by
    constructor
    · intro h
      rw [← sum_chunks limit bytes, h, List.sum_nil]
    · rintro rfl
      simp [chunks]
  rw [adjustStack, mergeMoves_steps hop, sum_chunks]
  simp only [hnone]

example : mergeMoves [.op .sub .sp .sp (.imm 1024), .op .sub .sp .sp (.imm 8),
    .op .add .sp .sp (.imm 4), .pop .pc, .op .add .sp .sp (.imm 4)] =
    [.op .sub .sp .sp (.imm 1032), .op .add .sp .sp (.imm 4), .pop .pc,
      .op .add .sp .sp (.imm 4)] := by
  decide

/-! ## §2 Listings up to merging -/

/-- The sequence with its moves merged. -/
def Sequence.merged (sequence : Sequence) : Sequence :=
  { sequence with code := mergeMoves sequence.code }

namespace Listing

/-- The listing with the moves of each of its sequences merged. -/
def merged (listing : Listing) : Listing :=
  { listing with
    header := mergeMoves listing.header
    sequences := listing.sequences.map (·.merged) }

/-- The listings are the same once moves are merged. -/
def Agrees (listing listing' : Listing) : Prop := listing.merged = listing'.merged

@[simp] theorem has_merged (listing : Listing) (name : String) :
    listing.merged.has name = listing.has name := by
  simp only [has, sequence?, merged, List.find?_map, Option.isSome_map]
  rfl

theorem merged_intern (listing : Listing) (text : String) :
    (listing.intern text).merged = listing.merged.intern text := by
  unfold intern
  split <;> simp_all [merged]

theorem merged_start (listing : Listing) (name : String) (savesLink : Bool) :
    (listing.start name savesLink).map merged = listing.merged.start name savesLink := by
  have hopening : mergeMoves (opening name savesLink) = opening name savesLink := by
    cases savesLink <;> rfl
  rw [start, start, has_merged]
  split
  · rfl
  · simp [Except.map, merged, Sequence.merged, hopening]

/-- Appends code to the innermost open sequence and merges the moves where the two meet. -/
def emitMerged (listing : Listing) (code : List Instruction) : Listing :=
  match listing.opened with
  | [] => { listing with header := listing.header.foldr consMerged code }
  | name :: _ =>
    { listing with
      sequences := listing.sequences.map fun sequence =>
        if sequence.name = name then
          { sequence with code := sequence.code.foldr consMerged code }
        else sequence }

theorem merged_emitAll (listing : Listing) (code : List Instruction) :
    (listing.emitAll code).merged = listing.merged.emitMerged (mergeMoves code) := by
  have hopened : listing.merged.opened = listing.opened := rfl
  rw [emitAll, emitMerged, hopened]
  cases listing.opened with
  | nil => simp [merged, mergeMoves_append]
  | cons name rest =>
    simp only [merged, List.map_map]
    congr 1
    apply List.map_congr_left
    intro sequence _
    by_cases hname : sequence.name = name <;>
      simp [Sequence.merged, Sequence.append, hname, mergeMoves_append]

namespace Agrees

variable {listing listing' : Listing}

theorem has_eq (h : listing.Agrees listing') (name : String) :
    listing.has name = listing'.has name := by
  rw [← has_merged, h, has_merged]

theorem opened_eq (h : listing.Agrees listing') : listing.opened = listing'.opened :=
  congrArg (·.opened) (show listing.merged = listing'.merged from h)

theorem messages_eq (h : listing.Agrees listing') : listing.messages = listing'.messages :=
  congrArg (·.messages) (show listing.merged = listing'.merged from h)

theorem messageLabel_eq (h : listing.Agrees listing') :
    listing.messageLabel = listing'.messageLabel := by
  funext text
  rw [messageLabel, messageLabel, h.messages_eq]

theorem intern (h : listing.Agrees listing') (text : String) :
    (listing.intern text).Agrees (listing'.intern text) := by
  rw [Agrees, merged_intern, merged_intern, h]

theorem emitAll (h : listing.Agrees listing') {code code' : List Instruction}
    (hcode : mergeMoves code = mergeMoves code') :
    (listing.emitAll code).Agrees (listing'.emitAll code') := by
  rw [Agrees, merged_emitAll, merged_emitAll, h, hcode]

theorem start (h : listing.Agrees listing') (name : String) (savesLink : Bool) :
    (listing.start name savesLink).map merged = (listing'.start name savesLink).map merged := by
  rw [merged_start, merged_start, h]

theorem finish (h : listing.Agrees listing') (ending : Ending) :
    (listing.finish ending).map merged = (listing'.finish ending).map merged := by
  rw [Listing.finish, Listing.finish, h.opened_eq]
  cases listing'.opened with
  | nil => rfl
  | cons name rest =>
    have hmerged : (listing.emitAll ending.code).merged = (listing'.emitAll ending.code).merged :=
      h.emitAll rfl
    exact congrArg (fun l : Listing => Except.ok { l with opened := rest }) hmerged

/-- The lines of such listings are the same once moves are merged, also across sequences. -/
theorem instructions (h : listing.Agrees listing') :
    mergeMoves listing.instructions = mergeMoves listing'.instructions := by
  have hflat (sequences : List Sequence) : mergeMoves (sequences.flatMap (·.code)) =
      (sequences.map (·.merged)).foldr (fun sequence rest => sequence.code.foldr consMerged rest)
        [] := by
    induction sequences with
    | nil => rfl
    | cons first rest ih =>
      rw [List.flatMap_cons, mergeMoves_append, ih]
      rfl
  have hheader : mergeMoves listing.header = mergeMoves listing'.header :=
    congrArg (·.header) (show listing.merged = listing'.merged from h)
  have hsequences : listing.sequences.map (·.merged) = listing'.sequences.map (·.merged) :=
    congrArg (·.sequences) (show listing.merged = listing'.merged from h)
  have hdata : listing.dataSection = listing'.dataSection := by
    rw [dataSection, dataSection, h.messages_eq]
  refine mergeMoves_append_congr (mergeMoves_append_congr hheader ?_) (congrArg mergeMoves hdata)
  rw [hflat, hflat, hsequences]

end Agrees

end Listing

/-! ## §3 Routines and expanded code -/

/-- Computations whose results agree in some respect can be continued by steps that look at nothing
else. -/
theorem map_bind_congr {ε α β γ δ : Type} {x y : Except ε α} {view : α → γ} {view' : β → δ}
    {next next' : α → Except ε β} (hxy : x.map view = y.map view)
    (hnext : ∀ a b, view a = view b → (next a).map view' = (next' b).map view') :
    (x >>= next).map view' = (y >>= next').map view' := by
  cases x with
  | error e =>
    cases y with
    | error e' =>
      cases hxy
      rfl
    | ok b => cases hxy
  | ok a =>
    cases y with
    | error e' => cases hxy
    | ok b => exact hnext a b (Except.ok.inj hxy)

/-- One computation can be continued by steps whose results agree. -/
theorem map_bind_right {ε α β δ : Type} (x : Except ε α) {view : β → δ}
    {next next' : α → Except ε β} (hnext : ∀ a, (next a).map view = (next' a).map view) :
    (x >>= next).map view = (x >>= next').map view := by
  cases x with
  | error e => rfl
  | ok a => exact hnext a

namespace Listing

namespace Agrees

variable {listing listing' : Listing}

theorem internAll (h : listing.Agrees listing') (texts : List String) :
    (texts.foldl Listing.intern listing).Agrees (texts.foldl Listing.intern listing') := by
  induction texts generalizing listing listing' with
  | nil => exact h
  | cons text rest ih => exact ih (h.intern text)

theorem define (h : listing.Agrees listing') (r : Routine) :
    (listing.define r).map merged = (listing'.define r).map merged := by
  refine map_bind_congr ((h.internAll r.texts).start _ _) ?_
  intro opened opened' (hopened : opened.Agrees opened')
  rw [hopened.messageLabel_eq]
  exact (hopened.emitAll rfl).finish _

theorem requireChain (h : listing.Agrees listing') (routines : List Routine) :
    (listing.requireChain routines).map merged = (listing'.requireChain routines).map merged := by
  induction routines generalizing listing listing' with
  | nil => exact congrArg Except.ok h
  | cons r rest ih =>
    rw [Listing.requireChain, Listing.requireChain, h.has_eq]
    split
    · exact congrArg Except.ok h
    · exact map_bind_congr (h.define r) fun mid mid' hmid => ih hmid

end Agrees

/-- Expanded code and the listing behind it, up to merging. -/
def mergedPair (out : List Instruction × Listing) : List Instruction × Listing :=
  (mergeMoves out.1, out.2.merged)

variable {listing listing' : Listing}

/-- The limit for one move has no influence on what a pseudo-instruction stands for but for how
moves are cut. -/
theorem Agrees.expand (h : listing.Agrees listing') (limit limit' : Nat) (p : Pseudo) :
    (listing.expand limit p).map mergedPair = (listing'.expand limit' p).map mergedPair := by
  cases p with
  | instr i => exact congrArg Except.ok (Prod.ext rfl h)
  | routine cond r =>
    exact map_bind_congr (h.requireChain r.chain) fun mid mid' hmid =>
      congrArg Except.ok (Prod.ext rfl hmid)
  | message dst text =>
    simp only [Listing.expand, messageLabel_intern, h.messageLabel_eq]
    exact congrArg Except.ok (Prod.ext rfl (h.intern text))
  | reserve bytes =>
    have hmoves : mergeMoves (adjustStack .sub limit bytes) =
        mergeMoves (adjustStack .sub limit' bytes) := by
      rw [mergeMoves_adjustStack (.inr rfl), mergeMoves_adjustStack (.inr rfl)]
    exact congrArg Except.ok (Prod.ext hmoves h)
  | unreserve bytes =>
    have hmoves : mergeMoves (adjustStack .add limit bytes) =
        mergeMoves (adjustStack .add limit' bytes) := by
      rw [mergeMoves_adjustStack (.inl rfl), mergeMoves_adjustStack (.inl rfl)]
    exact congrArg Except.ok (Prod.ext hmoves h)

/-- Code that is expanded under two limits is the same after merging. -/
theorem Agrees.expandAll (h : listing.Agrees listing') (limit limit' : Nat) (code : List Pseudo) :
    (listing.expandAll limit code).map mergedPair =
      (listing'.expandAll limit' code).map mergedPair := by
  induction code generalizing listing listing' with
  | nil => exact congrArg Except.ok (Prod.ext rfl h)
  | cons p rest ih =>
    refine map_bind_congr (h.expand limit limit' p) ?_
    rintro ⟨first, mid⟩ ⟨first', mid'⟩ hfirst
    obtain ⟨hcode, hmid⟩ := Prod.mk.inj hfirst
    refine map_bind_congr (ih hmid) ?_
    rintro ⟨others, last⟩ ⟨others', last'⟩ hothers
    obtain ⟨hcode', hlast⟩ := Prod.mk.inj hothers
    exact congrArg Except.ok (Prod.ext (mergeMoves_append_congr hcode hcode') hlast)

end Listing

/-! ## §4 Programs under two settings -/

/-- The assembly with the moves in its listing merged. -/
def Assembly.merged (assembly : Assembly) : Assembly :=
  { assembly with listing := assembly.listing.merged }

variable {config config' : Config}

/-- A body is added alike under two limits. -/
theorem Assembly.addBody_merged {assembly assembly' : Assembly}
    (h : assembly.merged = assembly'.merged) (body : Body) :
    (assembly.addBody config body).map merged = (assembly'.addBody config' body).map merged := by
  obtain ⟨hresources, hlisting⟩ := Assembly.mk.inj h
  refine map_bind_congr (Listing.Agrees.start hlisting body.label true) ?_
  intro opened opened' (hopened : opened.Agrees opened')
  rw [show assembly.resources = assembly'.resources from hresources]
  refine map_bind_right _ fun lowered => ?_
  refine map_bind_congr (hopened.expandAll config.stackChunk config'.stackChunk lowered.code) ?_
  rintro ⟨code, filled⟩ ⟨code', filled'⟩ hfilled
  obtain ⟨hcode, hfilled⟩ := Prod.mk.inj hfilled
  refine map_bind_congr ((Listing.Agrees.emitAll hfilled hcode).finish .userRet) ?_
  intro last last' hlast
  exact congrArg (fun l => Except.ok (Assembly.mk lowered.resources l)) hlast

theorem addBodies_merged (bodies : List Body) {assembly assembly' : Assembly}
    (h : assembly.merged = assembly'.merged) :
    (bodies.foldlM (Assembly.addBody config) assembly).map Assembly.merged =
      (bodies.foldlM (Assembly.addBody config') assembly').map Assembly.merged := by
  induction bodies generalizing assembly assembly' with
  | nil => exact congrArg Except.ok h
  | cons body rest ih =>
    rw [List.foldlM_cons, List.foldlM_cons]
    exact map_bind_congr (Assembly.addBody_merged h body) fun mid mid' hmid => ih hmid

/-- Two valid settings with the same registers lead to the same listing, up to merging. -/
theorem Program.assemble_merged (hvalid : config.fault? = none) (hvalid' : config'.fault? = none)
    (hregisters : config.generalRegisters = config'.generalRegisters) (table : SymbolTable)
    (p : Program) :
    (p.assemble table config).map Listing.merged =
      (p.assemble table config').map Listing.merged := by
  have hstart : Assembly.start config = Assembly.start config' := by
    rw [Assembly.start, Assembly.start, hregisters]
  simp only [assemble_eq, Config.validate, hvalid, hvalid']
  refine map_bind_right _ fun _ => ?_
  refine map_bind_congr (addBodies_merged (p.bodies table) (congrArg Assembly.merged hstart)) ?_
  intro assembly assembly' h
  exact congrArg (fun a : Assembly => Except.ok a.listing) h

/-! ## §5 The size of the moves -/

/-- A number that an instruction can hold as a constant operand: a byte, rotated right in a word by
an even number of bits. -/
def IsRotatedByte (value : Int) : Prop :=
  ∃ byte < 256, ∃ turns < 16,
    BitVec.ofInt 32 value = (BitVec.ofNat 32 byte).rotateRight (2 * turns)

/-- Up to 1020 the multiples of four are bytes moved up by two bits, and 1024 is a single bit. -/
theorem isRotatedByte_of_le {bytes : Nat} (hdvd : 4 ∣ bytes) (hle : bytes ≤ 1024) :
    IsRotatedByte bytes := by
  obtain ⟨byte, rfl⟩ := hdvd
  rcases Nat.lt_or_ge byte 256 with hbyte | hbyte
  · have htable : ∀ byte < 256,
        BitVec.ofInt 32 (4 * byte : Nat) = (BitVec.ofNat 32 byte).rotateRight (2 * 15) := by
      decide +kernel
    exact ⟨byte, hbyte, 15, by decide, htable byte hbyte⟩
  · obtain rfl : byte = 256 := by omega
    exact ⟨1, by decide, 11, by decide, by decide⟩

/-- Every move of the stack pointer in the code is by a multiple of four bytes, by at least four
and at most `limit` bytes, and by a number that an instruction can hold. -/
def MovesWithin (limit : Nat) (code : List Instruction) : Prop :=
  ∀ i ∈ code, ∀ op bytes, i.stackStep? = some (op, bytes) →
    4 ∣ bytes ∧ 4 ≤ bytes ∧ bytes ≤ limit ∧ IsRotatedByte bytes

theorem MovesWithin.of_none {limit : Nat} {code : List Instruction}
    (h : ∀ i ∈ code, i.stackStep? = none) : MovesWithin limit code := by
  intro i hi op bytes hstep
  rw [h i hi] at hstep
  cases hstep

theorem MovesWithin.append {limit : Nat} {a b : List Instruction} (ha : MovesWithin limit a)
    (hb : MovesWithin limit b) : MovesWithin limit (a ++ b) := by
  intro i hi
  rcases List.mem_append.1 hi with hi | hi
  · exact ha i hi
  · exact hb i hi

theorem MovesWithin.flatMap {α : Type} {limit : Nat} {pieces : List α}
    {code : α → List Instruction} (h : ∀ piece ∈ pieces, MovesWithin limit (code piece)) :
    MovesWithin limit (pieces.flatMap code) := by
  intro i hi
  obtain ⟨piece, hpiece, hi⟩ := List.mem_flatMap.1 hi
  exact h piece hpiece i hi

/-- What the settings say about the size of one move. -/
theorem Config.chunk_of_valid (hvalid : config.fault? = none) :
    4 ∣ config.stackChunk ∧ 4 ≤ config.stackChunk ∧ config.stackChunk ≤ 1024 := by
  unfold fault? at hvalid
  split at hvalid
  · cases hvalid
  · split at hvalid
    · cases hvalid
    · omega

/-- The pieces of a distance in slots are distances in slots. -/
theorem mem_chunks {limit bytes step : Nat} (hlimit : 4 ∣ limit) (hpos : 4 ≤ limit)
    (hbytes : 4 ∣ bytes) (hstep : step ∈ chunks limit bytes) :
    4 ∣ step ∧ 4 ≤ step ∧ step ≤ limit := by
  rcases List.mem_append.1 hstep with hwhole | hlast
  · obtain rfl := List.eq_of_mem_replicate hwhole
    exact ⟨hlimit, hpos, Nat.le_refl _⟩
  · split at hlast
    · cases hlast
    · obtain rfl := List.mem_singleton.1 hlast
      have hlt : bytes % limit < limit := Nat.mod_lt _ (by omega)
      have hdvd : 4 ∣ bytes % limit := (Nat.dvd_mod_iff hlimit).2 hbytes
      omega

/-- A move by whole words is cut into steps within a valid limit. -/
theorem movesWithin_adjustStack (hvalid : config.fault? = none) (op : ArithOp) {bytes : Nat}
    (hbytes : 4 ∣ bytes) :
    MovesWithin config.stackChunk (adjustStack op config.stackChunk bytes) := by
  obtain ⟨hdvd, hpos, hle⟩ := Config.chunk_of_valid hvalid
  intro i hi op' distance hmove
  obtain ⟨step, hstep, rfl⟩ := List.mem_map.1 hi
  obtain rfl : (step : Int) = distance := by
    cases op <;> simp_all [Instruction.op, Instruction.stackStep?]
  obtain ⟨hfour, hleast, hmost⟩ := mem_chunks hdvd hpos hbytes hstep
  exact ⟨by exact_mod_cast hfour, by omega, by omega, isRotatedByte_of_le hfour (by omega)⟩

/-- A step that moves the stack pointer by whole slots only, and never without saying so. -/
def Pseudo.Aligned : Pseudo → Prop
  | .instr i => i.stackStep? = none
  | .reserve bytes | .unreserve bytes => 4 ∣ bytes
  | .routine .. | .message .. => True

/-- An aligned step moves the stack pointer within the limit. -/
theorem Pseudo.Aligned.movesWithin {p : Pseudo} (h : p.Aligned) (hvalid : config.fault? = none)
    (message : String → String) :
    MovesWithin config.stackChunk (p.plain config.stackChunk message) := by
  cases p with
  | instr i => exact .of_none (by simpa [plain, Aligned] using h)
  | routine cond r => exact .of_none (by simp [plain, Instruction.stackStep?])
  | message dst text => exact .of_none (by
      simp [plain, Instruction.loadLabel, Instruction.load, Instruction.stackStep?])
  | reserve bytes | unreserve bytes => exact movesWithin_adjustStack hvalid _ h

theorem Straight.aligned {S : Int → Prop} {p : Pseudo} (h : Straight Harmless S p) :
    p.Aligned := by
  cases h with
  | @arith op setFlags r lhs rhs hr =>
    have hsp : r ≠ .sp := hr.1
    simp only [Pseudo.Aligned]
    unfold Instruction.stackStep?
    split <;> simp_all
  | text | routine => trivial
  | _ => rfl

theorem Pushes.aligned {S : Nat → Int → Prop} {count : Nat} {code : List Pseudo}
    (h : Pushes Harmless S count code) : ∀ p ∈ code, p.Aligned := by
  induction h with
  | nil => simp
  | snoc _ harg ih =>
    simp only [List.forall_mem_append, List.forall_mem_singleton]
    exact ⟨ih, fun p hp => (harg p hp).aligned, rfl⟩

/-- Structured code moves the stack pointer by whole slots, if it starts at a whole number of them:
scopes and arguments take up slots, and a return gives back what is taken up. -/
theorem Structured.aligned {known : String → Prop} {depth : Int} {n n' : Nat} {code : List Pseudo}
    (h : Structured Harmless known depth n n' code) (hdepth : 4 ∣ depth) :
    ∀ p ∈ code, p.Aligned := by
  induction h with
  | straight hcode => exact fun p hp => (hcode p hp).aligned
  | append _ _ iha ihb => exact List.forall_mem_append.2 ⟨iha hdepth, ihb hdepth⟩
  | call _ hpushes =>
    simp only [List.forall_mem_append, List.forall_mem_cons]
    exact ⟨hpushes.aligned, rfl, Nat.dvd_mul_right .., by simp⟩
  | scope _ ih =>
    simp only [scopeCode, List.forall_mem_append, List.forall_mem_cons]
    refine ⟨Nat.dvd_mul_right .., ih ?_, Nat.dvd_mul_right .., by simp⟩
    simp only [slotBytes]
    omega
  | ret hle =>
    simp only [List.forall_mem_cons]
    refine ⟨?_, rfl, by simp⟩
    simp only [Pseudo.Aligned]
    omega
  | ifThen hcond _ ih =>
    simp only [ifThenCode, List.forall_mem_append, List.forall_mem_cons]
    exact ⟨fun p hp => (hcond p hp).aligned, rfl, ih hdepth, rfl, by simp⟩
  | ifElse hcond _ _ ihThen ihElse =>
    simp only [ifElseCode, List.forall_mem_append, List.forall_mem_cons]
    exact ⟨fun p hp => (hcond p hp).aligned, rfl, ihThen hdepth, rfl, rfl, ihElse hdepth, rfl,
      by simp⟩
  | loop _ hcond ih =>
    simp only [loopCode, List.forall_mem_append, List.forall_mem_cons]
    exact ⟨rfl, rfl, ih hdepth, rfl, fun p hp => (hcond p hp).aligned, rfl, by simp⟩
  | untilLoop _ hcond ih =>
    simp only [untilCode, List.forall_mem_append, List.forall_mem_cons]
    exact ⟨rfl, ih hdepth, fun p hp => (hcond p hp).aligned, rfl, by simp⟩

/-- Routines do not move the stack pointer but by pushing and popping. -/
theorem Routine.stackStep?_eq_none (r : Routine) (message : String → String) :
    ∀ i ∈ (r.sequence message).code, i.stackStep? = none := by
  cases r <;> simp [sequence, Listing.opening, body, returns, ending, Ending.code, printWith,
    printFormatted, readFormatted, failIf, skipLength, Instruction.op, Instruction.call,
    Instruction.callIf, Instruction.jumpIf, Instruction.move, Instruction.load,
    Instruction.loadLabel, Instruction.loadLabelIf, Instruction.stackStep?]

/-- Every sequence that is put together moves the stack pointer within the limit. -/
theorem Piece.movesWithin {known : String → Prop} {piece : Piece}
    (h : piece.Sound Harmless known) (hvalid : config.fault? = none) (message : String → String) :
    MovesWithin config.stackChunk (piece.sequence config.stackChunk message).code := by
  cases piece with
  | support r => exact .of_none (r.stackStep?_eq_none message)
  | body label first next code =>
    have hcode : MovesWithin config.stackChunk
        (code.flatMap (·.plain config.stackChunk message)) :=
      .flatMap fun p hp => (h.1.aligned (Int.dvd_zero 4) p hp).movesWithin hvalid message
    exact .append (.of_none (by simp [Listing.opening, Instruction.stackStep?]))
      (.append hcode (.of_none (by simp [Ending.code, Instruction.stackStep?])))

/-- A data section has labels and directives only. -/
theorem Listing.mem_dataSection {listing : Listing} {i : Instruction}
    (hi : i ∈ listing.dataSection) : (∃ name, i = .label name) ∨ ∃ d, i = .directive d := by
  unfold dataSection at hi
  split at hi
  · cases hi
  · rcases List.mem_cons.1 hi with rfl | hi
    · exact .inr ⟨_, rfl⟩
    · obtain ⟨entry, hentry, hi⟩ := List.mem_flatten.1 hi
      obtain ⟨index, hindex, rfl⟩ := List.mem_mapIdx.1 hentry
      simp only [messageEntry, List.mem_cons, List.not_mem_nil, or_false] at hi
      rcases hi with rfl | rfl | rfl
      · exact .inl ⟨_, rfl⟩
      · exact .inr ⟨_, rfl⟩
      · exact .inr ⟨_, rfl⟩

theorem Listing.stackStep?_dataSection (listing : Listing) :
    ∀ i ∈ listing.dataSection, i.stackStep? = none := by
  intro i hi
  rcases mem_dataSection hi with ⟨name, rfl⟩ | ⟨d, rfl⟩ <;> rfl

namespace Program

variable {table : SymbolTable} {p : Program}

/-- So does the whole listing. -/
theorem assemble_movesWithin {listing : Listing} (h : p.assemble table config = .ok listing) :
    MovesWithin config.stackChunk listing.instructions := by
  obtain ⟨hvalid, assembly, pieces, rfl, hbuilt, _⟩ := assemble_built h (writable_harmless _)
  refine .append (.append (.of_none ?_) (.flatMap fun sequence hsequence => ?_))
    (.of_none (Listing.stackStep?_dataSection _))
  · rw [hbuilt.header]
    decide
  · rw [hbuilt.sequences] at hsequence
    obtain ⟨piece, hpiece, rfl⟩ := List.mem_map.1 hsequence
    exact piece.movesWithin (hbuilt.sound piece hpiece) hvalid _

/-! ## §6 Main statement -/

/-- The largest move of the stack pointer that the settings allow makes no difference but to how
moves are cut into instructions. Each of these is by whole slots, within the limit, and by a number
that the instruction can hold. -/
theorem generate_chunked (hvalid : config.fault? = none) (hvalid' : config'.fault? = none)
    (hregisters : config.generalRegisters = config'.generalRegisters) (table : SymbolTable)
    (p : Program) :
    (∃ e, p.generate table config = .error e ∧ p.generate table config' = .error e) ∨
      ∃ listing listing', p.assemble table config = .ok listing ∧
        p.assemble table config' = .ok listing' ∧
        p.generate table config = .ok listing.render ∧
        p.generate table config' = .ok listing'.render ∧
        mergeMoves listing.instructions = mergeMoves listing'.instructions ∧
        MovesWithin config.stackChunk listing.instructions ∧
        MovesWithin config'.stackChunk listing'.instructions := by
  have hmerged := assemble_merged hvalid hvalid' hregisters table p
  cases h : p.assemble table config with
  | error e =>
    cases h' : p.assemble table config' with
    | ok listing' => simp [h, h', Except.map] at hmerged
    | error e' =>
      obtain rfl : e = e' := by simpa [h, h', Except.map] using hmerged
      exact .inl ⟨e, by simp [generate, h, bind, Except.bind],
        by simp [generate, h', bind, Except.bind]⟩
  | ok listing =>
    cases h' : p.assemble table config' with
    | error e' => simp [h, h', Except.map] at hmerged
    | ok listing' =>
      have hagrees : listing.merged = listing'.merged := by simpa [h, h', Except.map] using hmerged
      exact .inr ⟨listing, listing', rfl, rfl, generate_eq_ok.2 ⟨listing, h, rfl⟩,
        generate_eq_ok.2 ⟨listing', h', rfl⟩, Listing.Agrees.instructions hagrees,
        assemble_movesWithin h, assemble_movesWithin h'⟩

/-- The stack pointer moved by one slot at a time, and by up to 1024 bytes. -/
theorem generate_chunked_sumProgram :
    ({ stackChunk := 4 } : Config).fault? = none ∧ ({} : Config).fault? = none ∧
    ∃ listing listing',
      sumProgram.assemble sumProgram.check.value { stackChunk := 4 } = .ok listing ∧
      sumProgram.assemble sumProgram.check.value {} = .ok listing' ∧
      sumProgram.generate sumProgram.check.value { stackChunk := 4 } = .ok listing.render ∧
      sumProgram.generate sumProgram.check.value {} = .ok listing'.render ∧
      mergeMoves listing.instructions = mergeMoves listing'.instructions ∧
      MovesWithin 4 listing.instructions ∧ MovesWithin 1024 listing'.instructions := by
  have hsmall : ({ stackChunk := 4 } : Config).fault? = none := by decide
  have hdefault : ({} : Config).fault? = none := by decide
  have hassemble : (sumProgram.assemble sumProgram.check.value {}).isOk := by decide +kernel
  obtain ⟨text, htext⟩ := generate_of_assemble hassemble
  refine ⟨hsmall, hdefault, ?_⟩
  rcases generate_chunked hsmall hdefault rfl sumProgram.check.value sumProgram with
    ⟨e, _, herror⟩ | hlistings
  · rw [htext] at herror
    cases herror
  · exact hlistings

end Program

end ArmCompiler
